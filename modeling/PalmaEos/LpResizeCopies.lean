import PalmaEos.LpResizeTidy

/-!
# The two copies of a metadata slot

liblp falls back to the backup copy, so the two copies of a slot should agree. Each is grown by
itself, and a copy that needs nothing is left alone; hence the copies agree after a run exactly if
they said the same before it, or one already is what the other becomes.

## Main results

* `main_agree_iff` — when the copies agree after a run
-/

namespace PalmaEos

namespace LpResize

/-! ### The copies after a run -/

section Copies

variable {sha : Sha256} {d out : Bytes} {target : Text} {newSize slot : ℤ} {g : Geometry} {k : ℕ}

/-- The slot number is one of the table, and the two copies of the slot in `out` are the same bytes
and intact grown copies. -/
structure CopiesAgree (sha : Sha256) (g : Geometry) (out : Bytes) (target : Text)
    (newSize slot : ℤ) : Prop where
  slot_nonneg : 0 ≤ slot
  slot_lt : slot < g.slotCount
  same : window out (g.primary slot.toNat) g.maxSize = window out (g.backup slot.toNat) g.maxSize
  primary : ∃ m, GrownCopy sha (window out (g.primary slot.toNat) g.maxSize) target newSize m
  backup : ∃ m, GrownCopy sha (window out (g.backup slot.toNat) g.maxSize) target newSize m

/-- The copy at `other` is the one at `base` with the growth already made. The copy at `base` is
whole and its target `p` is too small; the copy at `other` is tidy and says the same, but for the
extent that is missing from `p`. -/
def Behind (sha : Sha256) (d : Bytes) (maxSize : ℕ) (target : Text) (newSize : ℤ)
    (base other : ℕ) : Prop :=
  ∃ c idx p e m, copyContent d base = some c ∧ c.Whole ∧ c.index target = some idx ∧
    c.parts[idx]? = some p ∧ (p.decode.sectors : ℤ) < ceilSectors newSize ∧
    NextExtent c p newSize e ∧ Tidy sha d other maxSize m ∧ contentOf d m = c.grow idx e

/-- The two copies of slot `k` before the run: they say the same and no entry of theirs is cut
short, or one of them is behind the other. -/
def CopiesMatch (sha : Sha256) (d : Bytes) (g : Geometry) (k : ℕ) (target : Text) (newSize : ℤ) :
    Prop :=
  (∃ c, copyContent d (g.primary k) = some c ∧ copyContent d (g.backup k) = some c ∧ c.Whole) ∨
    Behind sha d g.maxSize target newSize (g.primary k) (g.backup k) ∨
    Behind sha d g.maxSize target newSize (g.backup k) (g.primary k)

theorem parsed_of_grown {base : ℕ} {b : Bytes}
    (h : patchSlot sha d base target newSize = .ok (some b)) :
    ∃ m, parseMetadata d base = .ok (some m) := by
  rcases patchSlot_eq_ok h with ⟨-, hnone⟩ | ⟨m, hm, -⟩
  · exact absurd hnone (by simp)
  · exact ⟨m, hm⟩

/-- Two copies that both grew end up intact and the same exactly if they said the same. -/
theorem same_content_iff {base other maxSize : ℕ} {b b' : Bytes}
    (h : patchSlot sha d base target newSize = .ok (some b))
    (h' : patchSlot sha d other target newSize = .ok (some b'))
    (hsize : b.length ≤ maxSize) (hsize' : b'.length ≤ maxSize) :
    (∃ c, copyContent d base = some c ∧ copyContent d other = some c ∧ c.Whole) ↔
      padded maxSize b = padded maxSize b' ∧
        (∃ m, GrownCopy sha (padded maxSize b) target newSize m) ∧
        ∃ m, GrownCopy sha (padded maxSize b') target newSize m := by
  obtain ⟨m, hm⟩ := parsed_of_grown h
  obtain ⟨m', hm'⟩ := parsed_of_grown h'
  rw [grownCopy_iff hm h hsize, grownCopy_iff hm' h' hsize', copyContent_of_parse hm,
    copyContent_of_parse hm']
  constructor
  · rintro ⟨c, hc, hc', hwhole⟩
    obtain rfl := Option.some.inj hc
    have hcontent := Option.some.inj hc'
    have hsame := patchSlot_eq_of_content hcontent.symm hm hm' h h'
    rw [Option.some.injEq] at hsame
    exact ⟨by rw [hsame], hwhole, hcontent ▸ hwhole⟩
  · rintro ⟨hpadded, hwhole, hwhole'⟩
    obtain ⟨idx, _, e, _, _, _, hgrown⟩ := patchSlot_regrown hm h
    obtain ⟨idx', _, e', _, _, _, hgrown'⟩ := patchSlot_regrown hm' h'
    have hcontent := hgrown.content_eq hwhole (List.replicate (maxSize - b.length) 0)
    have hcontent' := hgrown'.content_eq hwhole' (List.replicate (maxSize - b'.length) 0)
    change copyContent (padded maxSize b) 0 = _ at hcontent
    change copyContent (padded maxSize b') 0 = _ at hcontent'
    rw [hpadded, hcontent', Option.some.injEq] at hcontent
    -- the names are the same, so the target is at the same place in both
    have hnames := congrArg Content.names hcontent
    rw [names_grow, names_grow] at hnames
    have hidx : some idx' = some idx := by
      rw [← hgrown.index_eq, ← hgrown'.index_eq, Content.index, Content.index, hnames]
    rw [Option.some.inj hidx] at hcontent
    have hsame := grow_injective hcontent
    exact ⟨_, rfl, by rw [hsame], hwhole⟩

/-- A copy that grew and one that was left alone end up intact and the same exactly if the first was
behind the second. -/
theorem behind_iff {base other maxSize : ℕ} {b : Bytes}
    (h : patchSlot sha d base target newSize = .ok (some b)) (hsize : b.length ≤ maxSize)
    (hother : other + maxSize ≤ d.length) :
    Behind sha d maxSize target newSize base other ↔
      padded maxSize b = window d other maxSize ∧
        ∃ m, GrownCopy sha (padded maxSize b) target newSize m := by
  obtain ⟨m, hm⟩ := parsed_of_grown h
  obtain ⟨idx, p, e, _, _, _, hgrown⟩ := patchSlot_regrown hm h
  rw [grownCopy_iff hm h hsize]
  -- if the copy is whole, what it became is tidy and says the same, grown
  have hbecame : (contentOf d m).Whole → ∃ m', Tidy sha (padded maxSize b) 0 maxSize m' ∧
      contentOf (padded maxSize b) m' = (contentOf d m).grow idx e := by
    intro hwhole
    have htidy := hgrown.tidy hwhole hsize
    have hheld := hgrown.content_eq hwhole (List.replicate (maxSize - b.length) 0)
    rw [← padded, copyContent_of_parse htidy.parsed, Option.some.injEq] at hheld
    exact ⟨_, htidy, hheld⟩
  have hlen := length_padded hsize
  generalize padded maxSize b = region at hbecame hlen
  subst hlen
  constructor
  · rintro ⟨c, idx', p', e', m', hc, hwhole, hidx, hp, -, hnext, htidy, hcontent⟩
    rw [copyContent_of_parse hm, Option.some.injEq] at hc
    subst hc
    obtain rfl := Option.some.inj (hgrown.index_eq.symm.trans hidx)
    obtain rfl := Option.some.inj (hgrown.entry_eq.symm.trans hp)
    obtain rfl := hgrown.next.unique hnext
    obtain ⟨m₀, htidy₀, hheld⟩ := hbecame hwhole
    have hsame := htidy₀.window_eq htidy (hheld.trans hcontent.symm)
    rw [window_zero_length] at hsame
    exact ⟨hsame, hwhole⟩
  · rintro ⟨hwindow, hwhole⟩
    obtain ⟨m₀, htidy₀, hheld⟩ := hbecame hwhole
    exact ⟨_, idx, p, e, _, copyContent_of_parse hm, hwhole, hgrown.index_eq, hgrown.entry_eq,
      hgrown.small, hgrown.next, htidy₀.placed hother hwindow.symm,
      (htidy₀.enclosed.contentOf_placed hwindow.symm).trans hheld⟩

/-- The target of a copy that was left alone is large enough. -/
theorem large_of_none {base idx : ℕ} {m : Metadata} {p : PartContent}
    (hm : parseMetadata d base = .ok (some m))
    (h : patchSlot sha d base target newSize = .ok none)
    (hidx : (contentOf d m).index target = some idx) (hp : (contentOf d m).parts[idx]? = some p) :
    ceilSectors newSize ≤ p.decode.sectors := by
  rcases patchSlot_eq_ok h with ⟨hnone, -⟩ | ⟨m', hm', hparsed⟩
  · exact absurd (Except.ok.inj (hm.symm.trans hnone)) (by simp)
  · obtain rfl := Option.some.inj (Except.ok.inj (hm.symm.trans hm'))
    obtain ⟨_, _, plan, idx', cur, -, hplan, hidx', hcur, hcase⟩ := patchParsed_eq_ok hparsed
    have hplan' : plan = planned d m := mapM_eq_map (fun p _ lst hlst => planOf_eq_ok hlst) hplan
    subst hplan'
    obtain ⟨q, hq, rfl⟩ := target_of_planned hidx' hcur
    rw [indexOf_eq_index, hidx, Option.some.injEq] at hidx'
    subst hidx'
    obtain rfl := Option.some.inj (hp.symm.trans hq)
    rcases hcase with ⟨hlarge, -⟩ | ⟨_, _, _, -, hsome⟩
    · exact hlarge
    · exact absurd hsome (by simp)

theorem not_behind_of_none {base other maxSize : ℕ}
    (h : patchSlot sha d base target newSize = .ok none) :
    ¬ Behind sha d maxSize target newSize base other := by
  rintro ⟨c, idx, p, e, m, hc, -, hidx, hp, hsmall, -⟩
  obtain ⟨m', hm', -, rfl⟩ := copyContent_eq_some hc
  exact not_le.mpr hsmall (large_of_none hm' h hidx hp)

/-- Nothing is missing from a partition that was given the missing extent. -/
theorem not_behind_of_some {base other maxSize : ℕ} {b b' : Bytes}
    (h : patchSlot sha d base target newSize = .ok (some b))
    (h' : patchSlot sha d other target newSize = .ok (some b')) :
    ¬ Behind sha d maxSize target newSize base other := by
  rintro ⟨c, idx, p, e, m, hc, -, hidx, hp, -, hnext, htidy, hcontent⟩
  obtain ⟨m₀, hm₀⟩ := parsed_of_grown h
  obtain ⟨idx₀, p₀, e₀, _, _, _, hgrown⟩ := patchSlot_regrown hm₀ h
  rw [copyContent_of_parse hm₀, Option.some.injEq] at hc
  subst hc
  obtain rfl := Option.some.inj (hgrown.index_eq.symm.trans hidx)
  obtain rfl := Option.some.inj (hgrown.entry_eq.symm.trans hp)
  obtain rfl := hgrown.next.unique hnext
  obtain ⟨idx', p', e', _, _, _, hgrown'⟩ := patchSlot_regrown htidy.parsed h'
  have hindex := hgrown'.index_eq
  rw [hcontent, Content.index, names_grow, ← Content.index, hgrown.index_eq,
    Option.some.injEq] at hindex
  subst hindex
  have hentry := hgrown'.entry_eq
  rw [hcontent, Content.grow, List.getElem?_modify, hp] at hentry
  simp only [if_true] at hentry
  have hentry := Option.some.inj hentry
  have hsmall := hgrown'.small
  rw [← hentry, sectors_append] at hsmall
  exact not_le.mpr hsmall hgrown.newExt_sectors

/-- Copies that say the same are both grown or both left alone. -/
theorem not_same_content {base other : ℕ} {b : Bytes}
    (h : patchSlot sha d base target newSize = .ok (some b))
    (h' : patchSlot sha d other target newSize = .ok none) {c : Content}
    (hc : copyContent d base = some c) (hc' : copyContent d other = some c) : False := by
  obtain ⟨m, hm, -, hcontent⟩ := copyContent_eq_some hc
  obtain ⟨m', hm', -, hcontent'⟩ := copyContent_eq_some hc'
  exact absurd (patchSlot_eq_of_content (hcontent.trans hcontent'.symm) hm hm' h h') (by simp)

/-- A copy as the run leaves it. -/
def copyAfter (d : Bytes) (base maxSize : ℕ) : Option Bytes → Bytes
  | none => window d base maxSize
  | some b => padded maxSize b

theorem window_putCopy {base maxSize : ℕ} {r : Option Bytes} (hin : base + maxSize ≤ d.length)
    (hr : ∀ b ∈ r, b.length ≤ maxSize) :
    window (putCopy d base maxSize r) base maxSize = copyAfter d base maxSize r := by
  cases r with
  | none => rfl
  | some b => exact window_putCopy_self hin (hr b rfl)

/-- The two copies after the rounds that gave `r` and `r'`. -/
theorem copiesMatch_iff {r r' : Option Bytes}
    (hr : patchSlot sha d (g.primary k) target newSize = .ok r)
    (hr' : patchSlot sha d (g.backup k) target newSize = .ok r')
    (hsize : ∀ b ∈ r, b.length ≤ g.maxSize) (hsize' : ∀ b ∈ r', b.length ≤ g.maxSize)
    (hp : g.primary k + g.maxSize ≤ d.length) (hb : g.backup k + g.maxSize ≤ d.length)
    (hgrown : r ≠ none ∨ r' ≠ none) :
    CopiesMatch sha d g k target newSize ↔
      copyAfter d (g.primary k) g.maxSize r = copyAfter d (g.backup k) g.maxSize r' ∧
        (∃ m, GrownCopy sha (copyAfter d (g.primary k) g.maxSize r) target newSize m) ∧
        ∃ m, GrownCopy sha (copyAfter d (g.backup k) g.maxSize r') target newSize m := by
  rw [CopiesMatch]
  cases r with
  | none =>
    cases r' with
    | none => exact absurd rfl (hgrown.resolve_left (by simp))
    | some b' =>
      -- only the backup grew
      have hbehind := behind_iff hr' (hsize' b' rfl) hp
      constructor
      · rintro (⟨c, hc, hc', -⟩ | hprimary | hbackup)
        · exact (not_same_content hr' hr hc' hc).elim
        · exact absurd hprimary (not_behind_of_none hr)
        · obtain ⟨hsame, hB⟩ := hbehind.mp hbackup
          refine ⟨hsame.symm, ?_, hB⟩
          rwa [copyAfter, ← hsame]
      · rintro ⟨hsame, -, hB⟩
        exact Or.inr (Or.inr (hbehind.mpr ⟨hsame.symm, hB⟩))
  | some b =>
    cases r' with
    | none =>
      -- only the primary grew
      have hbehind := behind_iff hr (hsize b rfl) hb
      constructor
      · rintro (⟨c, hc, hc', -⟩ | hprimary | hbackup)
        · exact (not_same_content hr hr' hc hc').elim
        · obtain ⟨hsame, hP⟩ := hbehind.mp hprimary
          refine ⟨hsame, hP, ?_⟩
          rwa [copyAfter, ← hsame]
        · exact absurd hbackup (not_behind_of_none hr')
      · rintro ⟨hsame, hP, -⟩
        exact Or.inr (Or.inl (hbehind.mpr ⟨hsame, hP⟩))
    | some b' =>
      have hboth := same_content_iff hr hr' (hsize b rfl) (hsize' b' rfl)
      constructor
      · rintro (hsame | hprimary | hbackup)
        · exact hboth.mp hsame
        · exact absurd hprimary (not_behind_of_some hr hr')
        · exact absurd hbackup (not_behind_of_some hr' hr)
      · exact fun hcopies => Or.inl (hboth.mpr hcopies)

/-- **When the copies agree after a run.** A run that exits 0 leaves a slot of the table with two
intact grown copies, byte for byte the same, exactly if the slot number is not negative and the
copies matched before. -/
theorem main_agree_iff (h : main sha d target newSize slot = .ok out)
    (hg : readGeometry d = .ok g) :
    CopiesAgree sha g out target newSize slot ↔
      0 ≤ slot ∧ CopiesMatch sha d g slot.toNat target newSize := by
  by_cases hslot : 0 ≤ slot
  · obtain ⟨k, rfl⟩ := Int.eq_ofNat_of_zero_le hslot
    obtain ⟨g', r, r', hg', hk, hroom, hr, hr', hsize, hsize', hgrown, rfl⟩ := main_eq_ok h
    obtain rfl := Except.ok.inj (hg'.symm.trans hg)
    obtain ⟨-, hend, hmiddle, hend'⟩ := g'.slots hk
    have hapart : g'.primary k + g'.maxSize ≤ g'.backup k := by omega
    have hb : g'.backup k + g'.maxSize ≤ d.length := by omega
    have hp : g'.primary k + g'.maxSize ≤ d.length := by omega
    have hlen := length_putCopy hp hsize
    have hprimary : window (putCopy (putCopy d (g'.primary k) g'.maxSize r) (g'.backup k)
        g'.maxSize r') (g'.primary k) g'.maxSize = copyAfter d (g'.primary k) g'.maxSize r := by
      rw [window_putCopy_of_disjoint (by rw [hlen]; exact hb) hsize' (Or.inl hapart),
        window_putCopy hp hsize]
    have hbackup : window (putCopy (putCopy d (g'.primary k) g'.maxSize r) (g'.backup k)
        g'.maxSize r') (g'.backup k) g'.maxSize = copyAfter d (g'.backup k) g'.maxSize r' := by
      rw [window_putCopy (by rw [hlen]; exact hb) hsize']
      cases r' with
      | none => exact window_putCopy_of_disjoint hp hsize (Or.inr hapart)
      | some b' => rfl
    rw [Int.toNat_natCast, copiesMatch_iff hr hr' hsize hsize' hp hb hgrown, ← hprimary, ← hbackup]
    constructor
    · rintro ⟨-, -, hsame, hP, hB⟩
      exact ⟨hslot, hsame, hP, hB⟩
    · rintro ⟨-, hsame, hP, hB⟩
      exact ⟨hslot, by exact_mod_cast hk, hsame, hP, hB⟩
  · exact ⟨fun hagree => absurd hagree.slot_nonneg hslot, fun hmatch => absurd hmatch.1 hslot⟩

end Copies

/-! ### A dump with one slot -/

def smallGeometry : Geometry := ⟨512, 1, 4096⟩

/-- The fields of the geometry that are read. -/
def smallFields : Bytes := toLE 40 GEOMETRY_MAGIC ++ toLE 12 (512 + 1 * 2 ^ 32 + 4096 * 2 ^ 64)

/-- Everything before the copies. -/
def smallHead : Bytes := List.replicate 4096 0 ++ (smallFields ++ List.replicate 8140 0)

/-- A dump with two equal copies. -/
def smallDump : Bytes := smallHead ++ (padded 512 smallSlot ++ padded 512 smallSlot)

/-- A dump whose backup copy was erased. -/
def erasedDump : Bytes := smallHead ++ (padded 512 smallSlot ++ List.replicate 512 0)

/-- The content of both copies. -/
def smallContent : Content := contentOf smallSlot smallMetadata

theorem smallContent_whole : smallContent.Whole where
  parts := by decide +kernel
  extents := by decide +kernel
  groups := by decide +kernel
  devices := by decide +kernel

theorem length_smallFields : smallFields.length = 52 := by
  rw [smallFields, List.length_append, length_toLE, length_toLE]

theorem length_smallHead : smallHead.length = 12288 := by
  rw [smallHead, List.length_append, List.length_append, length_smallFields, List.length_replicate,
    List.length_replicate]

theorem window_smallFields (rest : Bytes) {a n : ℕ} (h : a + n ≤ 52) :
    window (smallHead ++ rest) (4096 + a) n = window smallFields a n := by
  have hparts : smallHead ++ rest
      = List.replicate 4096 0 ++ (smallFields ++ (List.replicate 8140 0 ++ rest)) := by
    rw [smallHead, List.append_assoc, List.append_assoc]
  have hfields := window_of_parts hparts List.length_replicate
  rw [length_smallFields] at hfields
  rw [← hfields, window_window h]

theorem readGeometry_small (rest : Bytes) :
    readGeometry (smallHead ++ rest) = .ok smallGeometry := by
  have hlen : 4096 + 52 ≤ (smallHead ++ rest).length := by
    rw [List.length_append, length_smallHead]
    omega
  have hmagic : unpackFrom (smallHead ++ rest) (4096 : ℕ) 8 = .ok (window smallFields 0 8) :=
    unpackFrom_eq_ok.mpr ⟨by omega, (window_smallFields rest (by omega)).symm⟩
  have hsizes : unpackFrom (smallHead ++ rest) (4096 + 40 : ℕ) 12
      = .ok (window smallFields 40 12) :=
    unpackFrom_eq_ok.mpr ⟨by omega, (window_smallFields rest (by omega)).symm⟩
  rw [readGeometry, GEOMETRY_OFFSET, hmagic, hsizes]
  decide +kernel

/-- The runs on these dumps, from what becomes of the two copies. -/
theorem main_small {copies : Bytes} (slot : ℤ) (p : ℕ) (r r' : Option Bytes)
    (hlen : 1024 ≤ copies.length) (hslot : slot < 1) (hp : (12288 : ℤ) + slot * 512 = p)
    (hr : patchSlot smallSha (smallHead ++ copies) p ['a'] 8192 = .ok r)
    (hr' : patchSlot smallSha (smallHead ++ copies) (p + 512 : ℕ) ['a'] 8192 = .ok r')
    (hsize : ∀ b ∈ r, b.length ≤ 512) (hsize' : ∀ b ∈ r', b.length ≤ 512)
    (hgrown : r ≠ none ∨ r' ≠ none) :
    main smallSha (smallHead ++ copies) ['a'] 8192 slot
      = .ok (putCopy (putCopy (smallHead ++ copies) p 512 r) (p + 512) 512 r') := by
  have hall : 13312 ≤ (smallHead ++ copies).length := by
    rw [List.length_append, length_smallHead]
    omega
  refine main_of_patchSlot (readGeometry_small copies) ?_ hslot hp ?_ le_rfl ?_ hr hr' hsize hsize'
    hgrown
  · exact (show 12288 + 1024 * 1 ≤ 13312 by decide).trans hall
  · change (12288 : ℤ) + 512 * 1 + slot * 512 = ((p + 512 : ℕ) : ℤ)
    omega
  · change p + 512 + 512 ≤ _
    omega

theorem slot_small_self : Slot smallSlot 0 smallSlot.length smallMetadata :=
  length_smallSlot.symm ▸ slot_small

/-- A copy that holds the small slot grows. -/
theorem patchSlot_of_small {d : Bytes} {p : ℕ} (hin : p + 368 ≤ d.length)
    (hstands : window d p smallSlot.length = smallSlot) :
    patchSlot smallSha d p ['a'] 8192 = .ok (some grownSlot) := by
  rw [slot_small_self.enclosed.patchSlot_placed (by rwa [length_smallSlot]) hstands]
  exact patchSlot_small

/-- A copy of zeros is skipped. -/
theorem patchSlot_of_zeros (pre post : Bytes) {p : ℕ} (hp : pre.length = p) :
    patchSlot smallSha (pre ++ (List.replicate 512 0 ++ post)) p ['a'] 8192 = .ok none := by
  have hlen : p + 128 ≤ (pre ++ (List.replicate 512 0 ++ post)).length := by
    rw [List.length_append, List.length_append, List.length_replicate]
    omega
  have hzero : leAt 4 (pre ++ (List.replicate 512 0 ++ post)) p = 0 := by
    rw [← hp, ← Nat.add_zero pre.length, leAt_append_right,
      leAt_append_left (by rw [List.length_replicate]; omega), leAt_replicate_zero]
  rw [patchSlot, parseMetadata_natCast hlen, if_pos (by rw [hzero]; decide)]
  rfl

theorem length_grownSlot : grownSlot.length ≤ 512 := by decide +kernel

theorem fits_grownSlot : ∀ b ∈ some grownSlot, b.length ≤ 512 := by
  intro b hb
  rw [← Option.mem_some.mp hb]
  exact length_grownSlot

theorem length_padded_small : (padded 512 smallSlot).length = 512 :=
  length_padded (by rw [length_smallSlot]; omega)

/-- Where the two copies stand. -/
theorem primary_stands (backup : Bytes) :
    window (smallHead ++ (padded 512 smallSlot ++ backup)) 12288 smallSlot.length = smallSlot := by
  rw [padded, List.append_assoc]
  exact window_of_parts rfl length_smallHead

theorem backup_stands : window smallDump 12800 smallSlot.length = smallSlot := by
  have hparts : smallDump = (smallHead ++ padded 512 smallSlot) ++ (smallSlot ++
      List.replicate (512 - smallSlot.length) 0) := by
    rw [smallDump, List.append_assoc]
    rfl
  refine window_of_parts hparts ?_
  rw [List.length_append, length_smallHead, length_padded_small]

theorem length_smallDump : smallDump.length = 13312 := by
  rw [smallDump, List.length_append, List.length_append, length_smallHead, length_padded_small]

/-- The copies of a dump whose primary copy grew. -/
theorem windows_small {copies : Bytes} (hlen : copies.length = 1024) :
    window (putCopy (smallHead ++ copies) 12288 512 (some grownSlot)) 12288 512
        = padded 512 grownSlot ∧
      window (putCopy (smallHead ++ copies) 12288 512 (some grownSlot)) 12800 512
        = window copies 512 512 := by
  have hall : (smallHead ++ copies).length = 13312 := by
    rw [List.length_append, length_smallHead, hlen]
  refine ⟨window_putCopy_self (by omega) length_grownSlot, ?_⟩
  rw [window_putCopy_of_disjoint (by omega) fits_grownSlot (by omega),
    show 12800 = smallHead.length + 512 by rw [length_smallHead], window_append_right]

theorem main_agree_small : ∃ out, main smallSha smallDump ['a'] 8192 0 = .ok out ∧
    CopiesAgree smallSha smallGeometry out ['a'] 8192 0 := by
  have hall := length_smallDump
  have hlen : (padded 512 smallSlot ++ padded 512 smallSlot).length = 1024 := by
    rw [List.length_append, length_padded_small]
  have hrun := main_small 0 12288 (some grownSlot) (some grownSlot) hlen.ge (by decide) rfl
    (patchSlot_of_small (by rw [← smallDump]; omega) (primary_stands _))
    (patchSlot_of_small (by rw [← smallDump]; omega) backup_stands)
    fits_grownSlot fits_grownSlot (Or.inl (Option.some_ne_none _))
  have hprimary : copyContent smallDump (smallGeometry.primary 0) = some smallContent :=
    slot_small_self.enclosed.copyContent_placed (by rw [length_smallSlot, hall]; decide)
      (primary_stands _)
  have hbackup : copyContent smallDump (smallGeometry.backup 0) = some smallContent :=
    slot_small_self.enclosed.copyContent_placed (by rw [length_smallSlot, hall]; decide)
      backup_stands
  exact ⟨_, hrun, (main_agree_iff hrun (readGeometry_small _)).mpr
    ⟨le_rfl, Or.inl ⟨smallContent, hprimary, hbackup, smallContent_whole⟩⟩⟩

/-- Runs that exit 0 and leave copies that do not agree: for slot 0 with an erased backup copy, and
for slot -1, which grows the primary copy of slot 0 only. -/
theorem not_agree_small :
    (∃ out, main smallSha erasedDump ['a'] 8192 0 = .ok out ∧
      readGeometry erasedDump = .ok smallGeometry ∧
      ¬ CopiesAgree smallSha smallGeometry out ['a'] 8192 0) ∧
    ∃ out, main smallSha smallDump ['a'] 8192 (-1) = .ok out ∧
      readGeometry smallDump = .ok smallGeometry ∧
      ¬ CopiesAgree smallSha smallGeometry out ['a'] 8192 (-1) ∧
      window out (smallGeometry.primary 0) 512 ≠ window out (smallGeometry.backup 0) 512 := by
  constructor
  · have hlen : (padded 512 smallSlot ++ List.replicate 512 0).length = 1024 := by
      rw [List.length_append, length_padded_small, List.length_replicate]
    have hall : (smallHead ++ (padded 512 smallSlot ++ List.replicate 512 0)).length = 13312 := by
      rw [List.length_append, length_smallHead, hlen]
    have herased : smallHead ++ (padded 512 smallSlot ++ List.replicate 512 0)
        = (smallHead ++ padded 512 smallSlot) ++ (List.replicate 512 0 ++ []) := by
      rw [List.append_nil, List.append_assoc]
    have hzeros := patchSlot_of_zeros (smallHead ++ padded 512 smallSlot) []
      (p := 12288 + 512) (by rw [List.length_append, length_smallHead, length_padded_small])
    obtain ⟨hprimary, hbackup⟩ := windows_small hlen
    have hrun := main_small 0 12288 (some grownSlot) none hlen.ge (by decide) rfl
      (patchSlot_of_small (by omega) (primary_stands _)) (by rw [herased]; exact hzeros)
      fits_grownSlot (by simp) (Or.inl (Option.some_ne_none _))
    refine ⟨_, hrun, readGeometry_small _, fun hagree => ?_⟩
    have hsame := hagree.same
    rw [show smallGeometry.primary (Int.toNat 0) = 12288 by decide,
      show smallGeometry.backup (Int.toNat 0) = 12800 by decide,
      show smallGeometry.maxSize = 512 by decide, putCopy, hprimary, hbackup] at hsame
    refine absurd hsame ?_
    decide +kernel
  · have hall := length_smallDump
    have hlen : (padded 512 smallSlot ++ padded 512 smallSlot).length = 1024 := by
      rw [List.length_append, length_padded_small]
    have hhead : smallDump = (List.replicate 4096 0 ++ (smallFields ++ List.replicate 7628 0)) ++
        (List.replicate 512 0 ++ (padded 512 smallSlot ++ padded 512 smallSlot)) := by
      rw [smallDump, smallHead, show 8140 = 7628 + 512 from rfl, List.replicate_add]
      simp only [List.append_assoc]
    have hzeros := patchSlot_of_zeros
      (List.replicate 4096 0 ++ (smallFields ++ List.replicate 7628 0))
      (padded 512 smallSlot ++ padded 512 smallSlot) (p := 11776)
      (by rw [List.length_append, List.length_append, length_smallFields, List.length_replicate,
        List.length_replicate])
    obtain ⟨hprimary, hbackup⟩ := windows_small hlen
    have hrun := main_small (-1) 11776 none (some grownSlot) hlen.ge (by decide) rfl
      (by rw [← smallDump, hhead]; exact hzeros)
      (patchSlot_of_small (by rw [← smallDump]; omega) (primary_stands _))
      (by simp) fits_grownSlot (Or.inr (Option.some_ne_none _))
    refine ⟨_, hrun, readGeometry_small _, fun hagree => ?_, fun hsame => ?_⟩
    · exact absurd hagree.slot_nonneg (by decide)
    · refine absurd (hprimary.symm.trans (hsame.trans hbackup)) ?_
      decide +kernel

end LpResize

end PalmaEos
