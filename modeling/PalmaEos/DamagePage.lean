import Mathlib.Data.List.OfFn
import PalmaEos.Lib.Rect

/-!
# The shared damage page

SurfaceFlinger publishes the region it has composited to a page of shared memory, and the composer
shim reads it: `publishEpdcDamage` on one side, `read_damage` on the other, with a sequence number
that is odd while a publication is going on. Here are completed publications, and a reader that
may meet any words at all; `ReadsPage` says what it meets while a page is at rest, or is being
written to.

Coordinates are those of the panel, 1648 by 824 pixels.

## Main results

* `covers_publish_iff`, `covers_publish` — what a published page asks to refresh; the region is
  part of it
* `readDamage_reads` — what a read of a page gives
-/

namespace PalmaEos

/-- `EPDC_DAMAGE_MAX`. -/
def EPDC_DAMAGE_MAX : ℕ := 8

def PANEL_W : ℤ := 1648
def PANEL_H : ℤ := 824

/-- The whole panel. -/
def panel : Rect := ⟨0, 0, PANEL_W, PANEL_H⟩

/-- The words of `epdc_damage_shm` that change with a publication. -/
structure Page where
  seq : UInt32
  count : UInt32
  full : UInt32
  rect : Fin 8 → Rect

/-! ### Publishing -/

/-- A SurfaceFlinger region: finitely many rectangles that hold pixels, and the bounds that
`getBounds` gives for them. -/
structure Region where
  rects : List Rect
  bounds : Rect
  proper : ∀ r ∈ rects, r.Proper
  has_bounds : ∀ r ∈ rects, ∀ x y, r.Has x y → bounds.Has x y

/-- Pixel `(x, y)` is in the region. -/
def Region.Has (d : Region) (x y : ℤ) : Prop := ∃ r ∈ d.rects, r.Has x y

instance (d : Region) (x y : ℤ) : Decidable (d.Has x y) :=
  inferInstanceAs (Decidable (∃ r ∈ d.rects, r.Has x y))

/-- The rectangles `publishEpdcDamage` decides on: none for a full pass, all of them when they
fit, and the bounds when there are more than fit. -/
def publishedRects (damage : Region) (forceFull : Bool) : List Rect :=
  if forceFull then []
  else if 0 < damage.rects.length ∧ damage.rects.length ≤ EPDC_DAMAGE_MAX then damage.rects
  else if EPDC_DAMAGE_MAX < damage.rects.length then [damage.bounds]
  else []

/-- `publishEpdcDamage`, completed. -/
def publishEpdcDamage (page : Page) (damage : Region) (forceFull : Bool) : Page :=
  let rects := publishedRects damage forceFull
  { seq := page.seq + 1 + 1
    count := UInt32.ofNat rects.length
    full := if forceFull ∨ rects.length = 0 then 1 else 0
    rect := fun i => rects[i.val]?.getD (page.rect i) }

/-! ### Reading -/

/-- The words one attempt of `read_damage` loads. -/
structure View where
  seq₁ : UInt32
  count : UInt32
  full : UInt32
  rect : Fin 8 → Rect
  seq₂ : UInt32

/-- The attempt is given up: a writer was or came in between. -/
def View.Contended (v : View) : Prop := v.seq₁ &&& 1 ≠ 0 ∨ v.seq₁ ≠ v.seq₂

instance (v : View) : Decidable v.Contended := inferInstanceAs (Decidable (_ ∨ _))

/-- What `read_damage` returns: the rectangles and their number, the full flag, and whether
SurfaceFlinger composited anything new. -/
structure Snapshot where
  rect : Fin 8 → Rect
  n : ℕ
  full : UInt32
  changed : Bool

/-- The first of the four attempts that is not given up. -/
def firstStable (views : Fin 4 → View) : Option View :=
  (List.ofFn views).find? fun v => ¬ v.Contended

/-- `read_damage`: the snapshot, and the new `last_dmg_seq`. Without rectangles the array stays
uninitialised; nothing reads it then. -/
def readDamage (attached : Bool) (views : Fin 4 → View) (lastDmgSeq : UInt32) :
    Snapshot × UInt32 :=
  if ! attached then (⟨fun _ => panel, 0, 0, true⟩, lastDmgSeq)
  else match firstStable views with
    | none => (⟨fun _ => panel, 0, 0, true⟩, lastDmgSeq)
    | some v => (⟨v.rect, min v.count.toNat EPDC_DAMAGE_MAX, v.full, v.seq₁ != lastDmgSeq⟩, v.seq₁)

/-- `views` are attempts at reading `page`: an attempt that is not given up has seen it. -/
def ReadsPage (page : Page) (views : Fin 4 → View) : Prop :=
  ∀ i, ¬ (views i).Contended → (views i).seq₁ = page.seq ∧ (views i).count = page.count ∧
    (views i).full = page.full ∧ (views i).rect = page.rect

/-! ### Coverage -/

/-- What a snapshot asks to refresh: the first `n` rectangles, or everything. -/
def Snapshot.Covers (snap : Snapshot) (x y : ℤ) : Prop :=
  snap.full ≠ 0 ∨ snap.n = 0 ∨ ∃ i : Fin 8, i.val < snap.n ∧ (snap.rect i).Has x y

/-- What a page asks to refresh. -/
def Page.Covers (page : Page) (x y : ℤ) : Prop :=
  page.full ≠ 0 ∨ page.count = 0 ∨ ∃ i : Fin 8, i.val < page.count.toNat ∧ (page.rect i).Has x y

/-- A publication of the region asks to refresh pixel `(x, y)`: the pixel is in the region, or in
its bounds when there are too many rectangles, or the whole panel is asked for. -/
def Region.Asks (damage : Region) (forceFull : Bool) (x y : ℤ) : Prop :=
  forceFull ∨ damage.rects = [] ∨ damage.Has x y ∨
    EPDC_DAMAGE_MAX < damage.rects.length ∧ damage.bounds.Has x y

theorem length_publishedRects_le (damage : Region) (forceFull : Bool) :
    (publishedRects damage forceFull).length ≤ EPDC_DAMAGE_MAX := by
  rw [publishedRects]
  split_ifs with _ h
  · exact Nat.zero_le _
  · exact h.2
  · exact (by decide : 1 ≤ EPDC_DAMAGE_MAX)
  · exact Nat.zero_le _

/-- The published rectangles ask for the pixels that the publication asks for. -/
theorem publishedRects_asks {damage : Region} {forceFull : Bool} {x y : ℤ} :
    (publishedRects damage forceFull = [] ∨ ∃ r ∈ publishedRects damage forceFull, r.Has x y) ↔
      damage.Asks forceFull x y := by
  rw [publishedRects, Region.Asks]
  split_ifs with hfull hfew hmany
  · exact iff_of_true (Or.inl rfl) (Or.inl hfull)
  · rw [or_iff_right hfull]
    refine or_congr_right ⟨fun h => Or.inl h, fun h => h.resolve_right ?_⟩
    intro hmany
    exact absurd hmany.1 (not_lt.mpr hfew.2)
  · have hne : damage.rects ≠ [] := by
      intro hnil
      rw [hnil] at hmany
      exact absurd hmany (by decide)
    rw [or_iff_right hfull, or_iff_right hne, false_or]
    constructor
    · rintro ⟨r, hr, hxy⟩
      rw [List.mem_singleton.mp hr] at hxy
      exact Or.inr ⟨hmany, hxy⟩
    · rintro (⟨r, hr, hxy⟩ | ⟨-, hxy⟩)
      · exact ⟨_, List.mem_singleton.mpr rfl, damage.has_bounds r hr x y hxy⟩
      · exact ⟨_, List.mem_singleton.mpr rfl, hxy⟩
  · have hnil : damage.rects = [] := List.length_eq_zero_iff.mp (by omega)
    exact iff_of_true (Or.inl rfl) (Or.inr (Or.inl hnil))

/-- **What a published page asks to refresh.** -/
theorem covers_publish_iff (page : Page) {damage : Region} {forceFull : Bool} {x y : ℤ} :
    (publishEpdcDamage page damage forceFull).Covers x y ↔ damage.Asks forceFull x y := by
  rw [← publishedRects_asks]
  have hlen : (publishedRects damage forceFull).length ≤ 8 := length_publishedRects_le _ _
  have hcount : (UInt32.ofNat (publishedRects damage forceFull).length).toNat
      = (publishedRects damage forceFull).length := by
    rw [UInt32.toNat_ofNat', Nat.mod_eq_of_lt (by omega)]
  rw [Page.Covers, publishEpdcDamage]
  dsimp only
  constructor
  · rintro (hfull | hzero | ⟨i, hi, hxy⟩)
    · left
      split_ifs at hfull with h
      · rcases h with hforce | hnil
        · rw [publishedRects, if_pos hforce]
        · exact List.length_eq_zero_iff.mp hnil
      · exact absurd rfl hfull
    · left
      rw [hzero] at hcount
      exact List.length_eq_zero_iff.mp hcount.symm
    · right
      rw [hcount] at hi
      rw [List.getElem?_eq_getElem hi, Option.getD_some] at hxy
      exact ⟨_, List.getElem_mem hi, hxy⟩
  · rintro (hnil | ⟨r, hr, hxy⟩)
    · left
      rw [if_pos (Or.inr (by rw [hnil, List.length_nil]))]
      exact (by decide : (1 : UInt32) ≠ 0)
    · right
      right
      obtain ⟨i, hi, rfl⟩ := List.mem_iff_getElem.mp hr
      refine ⟨⟨i, by omega⟩, hcount.symm ▸ hi, ?_⟩
      rwa [List.getElem?_eq_getElem hi, Option.getD_some]

/-- **A published page covers the region.** -/
theorem covers_publish (page : Page) {damage : Region} (forceFull : Bool) {x y : ℤ}
    (h : damage.Has x y) : (publishEpdcDamage page damage forceFull).Covers x y :=
  (covers_publish_iff page).mpr (Or.inr (Or.inr (Or.inl h)))

/-- **Reading a page**: either the read gives up and asks for everything, or the snapshot is the
page's. Whatever the page asks to refresh, so does the snapshot. -/
theorem readDamage_reads {page : Page} {views : Fin 4 → View} (h : ReadsPage page views)
    (lastDmgSeq : UInt32) :
    (firstStable views = none ∧ (readDamage true views lastDmgSeq).1.n = 0 ∧
        (readDamage true views lastDmgSeq).1.changed = true ∧
        (readDamage true views lastDmgSeq).2 = lastDmgSeq) ∨
      ((readDamage true views lastDmgSeq).1
          = ⟨page.rect, min page.count.toNat EPDC_DAMAGE_MAX, page.full, page.seq != lastDmgSeq⟩ ∧
        (readDamage true views lastDmgSeq).2 = page.seq) := by
  rw [readDamage]
  cases hv : firstStable views with
  | none => exact Or.inl ⟨rfl, rfl, rfl, rfl⟩
  | some v =>
    right
    obtain ⟨i, rfl⟩ := (List.mem_ofFn' _ _).mp (List.mem_of_find?_eq_some hv)
    obtain ⟨hseq, hcount, hfull, hrect⟩ := h i (by simpa using List.find?_some hv)
    rw [← hseq, ← hcount, ← hfull, ← hrect]
    exact ⟨rfl, rfl⟩

theorem covers_readDamage {page : Page} {views : Fin 4 → View} (h : ReadsPage page views)
    {lastDmgSeq : UInt32} {x y : ℤ} (hxy : page.Covers x y) :
    (readDamage true views lastDmgSeq).1.Covers x y := by
  rcases readDamage_reads h lastDmgSeq with ⟨-, hn, -⟩ | ⟨hsnap, -⟩
  · exact Or.inr (Or.inl hn)
  · rw [hsnap]
    rcases hxy with hfull | hzero | ⟨i, hi, hhas⟩
    · exact Or.inl hfull
    · refine Or.inr (Or.inl ?_)
      dsimp only
      rw [hzero]
      rfl
    · exact Or.inr (Or.inr ⟨i, lt_min hi i.isLt, hhas⟩)

theorem n_readDamage_le (attached : Bool) (views : Fin 4 → View) (lastDmgSeq : UInt32) :
    (readDamage attached views lastDmgSeq).1.n ≤ EPDC_DAMAGE_MAX := by
  rw [readDamage]
  split
  · exact Nat.zero_le _
  · split
    · exact Nat.zero_le _
    · exact min_le_right _ _

end PalmaEos
