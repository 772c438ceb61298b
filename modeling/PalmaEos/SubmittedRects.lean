import PalmaEos.InitParms

/-!
# The submitted rectangles

From the shared page to the entries the kernel reads: `submit` is `init_parms` on a snapshot of
`read_damage`. Read as left, top, right and bottom, the entries are rectangles of the panel and
cover what SurfaceFlinger published. Read as x, y, width and height, which is how the kernel's
documentation describes them, they are rectangles of the panel for some updates only.

## Main results

* `submit_valid_and_covers` — valid rectangles that cover the damage
* `submit_xywh_iff` — which updates respect the documented reading
-/

namespace PalmaEos

/-- `init_parms` on a snapshot. -/
def submit (t : Tunables) (updatesSinceFull : ℤ) (parms : Fin 8 → Upd) (dt : ℤ) (snap : Snapshot) :
    InitResult :=
  initParms t updatesSinceFull parms dt snap.rect snap.n (snap.full ≠ 0)

section Submit

variable (t : Tunables) (usf : ℤ) (parms : Fin 8 → Upd) (dt : ℤ) (attached : Bool)
  (views : Fin 4 → View) (lastDmgSeq : UInt32)

/-- The pixels a page covers are covered by the entries, also when the read gives up. -/
theorem submit_covers {page : Page} {views : Fin 4 → View} (h : ReadsPage page views) {x y : ℤ}
    (hxy : page.Covers x y) (hp : panel.Has x y) :
    ∃ i : Fin 8, i.val < (submit t usf parms dt (readDamage attached views lastDmgSeq).1).n ∧
      ((submit t usf parms dt (readDamage attached views lastDmgSeq).1).parms i).ltrb.Has x y := by
  refine initParms_covers t usf parms dt (n_readDamage_le attached views lastDmgSeq) ?_ hp
  cases attached with
  | false => exact Or.inr (Or.inl rfl)
  | true => exact covers_readDamage h hxy

/-- **Submitted rectangles are valid and cover the damage.** Whatever words the page holds and the
four attempts load, and whatever the tunables and the time since the last update, between one and
eight entries are submitted and each is a non-empty rectangle of the panel, read as left, top,
right and bottom. When the attempts read a page that `publishEpdcDamage` has written, every pixel
of the panel in its region is in one of the entries. -/
theorem submit_valid_and_covers :
    (1 ≤ (submit t usf parms dt (readDamage attached views lastDmgSeq).1).n ∧
      (submit t usf parms dt (readDamage attached views lastDmgSeq).1).n ≤ 8) ∧
    (∀ i : Fin 8, i.val < (submit t usf parms dt (readDamage attached views lastDmgSeq).1).n →
      ∀ u, u = (submit t usf parms dt (readDamage attached views lastDmgSeq).1).parms i →
        0 ≤ u.rect 0 ∧ u.rect 0 < u.rect 2 ∧ u.rect 2 ≤ 1648 ∧
          0 ≤ u.rect 1 ∧ u.rect 1 < u.rect 3 ∧ u.rect 3 ≤ 824) ∧
    ∀ (page : Page) (damage : Region) (forceFull : Bool),
      ReadsPage (publishEpdcDamage page damage forceFull) views →
        ∀ x y, 0 ≤ x ∧ x < 1648 ∧ 0 ≤ y ∧ y < 824 → damage.Has x y →
          ∃ i : Fin 8, i.val < (submit t usf parms dt (readDamage attached views lastDmgSeq).1).n ∧
            ((submit t usf parms dt
              (readDamage attached views lastDmgSeq).1).parms i).ltrb.Has x y := by
  refine ⟨initParms_n _ _ _ _ _ _ _, ?_, ?_⟩
  · rintro i hi u rfl
    obtain ⟨hproper, hleft, htop, hright, hbottom⟩ := initParms_valid _ _ _ _ _ _ _ hi
    exact ⟨hleft, hproper.1, hright, htop, hproper.2, hbottom⟩
  · intro page damage forceFull hreads x y hp hxy
    exact submit_covers t usf parms dt attached lastDmgSeq hreads
      (covers_publish page forceFull hxy) hp

/-- One rectangle that sticks out on the left. -/
def edgeRegion : Region := ⟨[⟨-5, 0, 10, 10⟩], ⟨-5, 0, 10, 10⟩, by decide, by simp⟩

/-- The attempts of a read while a page rests with that rectangle. -/
def restingViews : Fin 4 → View := fun _ => ⟨4, 1, 0, fun _ => ⟨-5, 0, 10, 10⟩, 4⟩

theorem submit_valid_and_covers_edge : ∃ i : Fin 8,
    i.val < (submit Tunables.init 0 zeroParms (-1) (readDamage true restingViews 2).1).n ∧
      ((submit Tunables.init 0 zeroParms (-1)
        (readDamage true restingViews 2).1).parms i).ltrb.Has 3 4 := by
  have hreads : ReadsPage (publishEpdcDamage ⟨2, 0, 1, fun _ => ⟨-5, 0, 10, 10⟩⟩ edgeRegion false)
      restingViews := by
    have hrect : ∀ i : Fin 8,
        (⟨-5, 0, 10, 10⟩ : Rect) = [⟨-5, 0, 10, 10⟩][i.val]?.getD ⟨-5, 0, 10, 10⟩ := by decide
    exact fun _ _ => ⟨rfl, rfl, rfl, funext hrect⟩
  exact (submit_valid_and_covers Tunables.init 0 zeroParms (-1) true restingViews 2).2.2 _ _ _
    hreads 3 4 (by decide) (by decide)

end Submit

/-! ### The documented reading -/

/-- A damage rectangle that may be written as left, top, right and bottom and read as x, y, width
and height: nothing of it is on the panel, or what is lies far enough to the left and up. -/
def ReadsAlike (d : Rect) : Prop :=
  ¬ (d.inter panel).Proper ∨
    max d.left 0 + min d.right 1648 ≤ 1648 ∧ max d.top 0 + min d.bottom 824 ≤ 824

theorem respectsAbi_clampRect {u : Upd} {d : Rect} (h : u.ltrb = clampRect d) :
    u.RespectsAbi ↔ ReadsAlike d := by
  have h0 : u.rect 0 = (clampRect d).left := congrArg Rect.left h
  have h1 : u.rect 1 = (clampRect d).top := congrArg Rect.top h
  have h2 : u.rect 2 = (clampRect d).right := congrArg Rect.right h
  have h3 : u.rect 3 = (clampRect d).bottom := congrArg Rect.bottom h
  rw [clampRect_spec] at h0 h1 h2 h3
  rw [Upd.RespectsAbi, ReadsAlike, h0, h1, h2, h3]
  by_cases hproper : (d.inter panel).Proper
  · rw [if_pos hproper, or_iff_right (not_not.mpr hproper)]
    simp only [Rect.Proper, Rect.inter, panel, PANEL_W, PANEL_H] at hproper ⊢
    omega
  · rw [if_neg hproper]
    exact ⟨fun _ => Or.inl hproper, fun _ => by decide⟩

/-- **Which updates respect the documented ABI**: full updates, and those whose rectangles read
alike both ways. -/
theorem submit_xywh_iff (t : Tunables) (usf : ℤ) (parms : Fin 8 → Upd) (dt : ℤ)
    (dmg : Fin 8 → Rect) (nDmg : ℤ) (forceFull : Bool) :
    (∀ i : Fin 8, i.val < (initParms t usf parms dt dmg nDmg forceFull).n →
        ((initParms t usf parms dt dmg nDmg forceFull).parms i).RespectsAbi) ↔
      FullUpdate t usf nDmg forceFull ∨ ∀ i : Fin 8, i.val < nDmg → ReadsAlike (dmg i) := by
  by_cases hfull : FullUpdate t usf nDmg forceFull
  · refine ⟨fun _ => Or.inl hfull, ?_⟩
    intro _ i hi
    have hltrb := (ltrb_initParms t usf parms dt dmg nDmg forceFull hi).1
    rw [usedRects_of_full hfull, if_neg (by omega),
      show panel = clampRect panel by decide] at hltrb
    refine (respectsAbi_clampRect hltrb).mpr (Or.inr ?_)
    decide
  · obtain ⟨hused, hpos⟩ := usedRects_of_not_full hfull
    have hn : (initParms t usf parms dt dmg nDmg forceFull).n = min nDmg 8 := by
      rw [initParms]
      dsimp only
      rw [hused, if_pos (by omega)]
    have hentry : ∀ i : Fin 8, i.val < nDmg →
        (((initParms t usf parms dt dmg nDmg forceFull).parms i).RespectsAbi ↔
          ReadsAlike (dmg i)) := by
      intro i hi
      have hltrb := (ltrb_initParms t usf parms dt dmg nDmg forceFull (i := i) (by omega)).1
      rw [hused, if_pos (by omega)] at hltrb
      exact respectsAbi_clampRect hltrb
    rw [or_iff_right hfull, hn]
    refine forall_congr' fun i => ?_
    constructor
    · intro h hi
      exact (hentry i hi).mp (h (by omega))
    · intro h hi
      exact (hentry i (by omega)).mpr (h (by omega))

/-- The upper half of the right half of the panel is submitted as x = 824 with width 1648. -/
theorem submit_xywh_right_half : ∃ i : Fin 8,
    i.val < (initParms Tunables.init 0 zeroParms (-1) (fun _ => ⟨824, 0, 1648, 412⟩) 1 false).n ∧
      ¬ ((initParms Tunables.init 0 zeroParms (-1) (fun _ => ⟨824, 0, 1648, 412⟩) 1
        false).parms i).RespectsAbi :=
  ⟨0, by decide⟩

end PalmaEos
