import PalmaEos.LpResizeCopies

/-!
# What a run of `lp-resize-partition.py` writes

The output file is opened after both copies have been patched in memory, so a run that refuses, in
whichever copy, leaves it as it was. A run that exits 0 changes the regions of the two copies and
nothing else, and after it both copies are large enough for the same request.

## Main results

* `copy_settled` — growing a copy that is left alone, or has just grown, finds nothing to do
* `run_framed` — a run writes all of the change or nothing, and a second one writes nothing
-/

namespace PalmaEos

namespace LpResize

/-- A run, as the output file and whether it exits 0, from the file there was. -/
def run (sha : Sha256) (d : Bytes) (target : Text) (newSize slot : ℤ) (old : Option Bytes) :
    Option Bytes × Bool :=
  match main sha d target newSize slot with
  | .ok out => (some out, true)
  | .error _ => (old, false)

/-- The tables of the metadata at `base`, if there is a header, lie in the slot. -/
def TablesInside (d : Bytes) (maxSize base : ℕ) : Prop :=
  ∀ m, parseMetadata d base = .ok (some m) →
    ∀ t ∈ [m.partitions, m.extents, m.groups, m.devices],
      m.hdrSize + t.offset + t.numEntries * t.entrySize ≤ maxSize

/-! ### Growing a copy a second time -/

section Settled

variable {sha : Sha256} {d out b : Bytes} {base maxSize : ℕ} {m : Metadata} {target : Text}
  {newSize : ℤ} {r : Option Bytes}

theorem unpackFrom_congr {a n : ℕ} (hlen : out.length = d.length)
    (hwindow : window out a n = window d a n) :
    unpackFrom out (a : ℤ) n = unpackFrom d (a : ℤ) n := by
  rw [unpackFrom, unpackFrom, bufferAt_natCast, bufferAt_natCast, hlen, hwindow]

/-- A header is read from the region of its slot. -/
theorem parseMetadata_congr (h128 : 128 ≤ maxSize) (hin : base + maxSize ≤ d.length)
    (hlen : out.length = d.length) (hwindow : window out base maxSize = window d base maxSize) :
    parseMetadata out base = parseMetadata d base := by
  have hread : ∀ w a, a + w ≤ 128 → leAt w out (base + a) = leAt w d (base + a) := by
    intro w a ha
    rw [← leAt_window (n := maxSize) (by omega), hwindow, leAt_window (by omega)]
  have hdesc : ∀ a, a + 12 ≤ 128 → descAt out (base + a) = descAt d (base + a) := by
    intro a ha
    rw [descAt, descAt, hread 4 a (by omega), Nat.add_assoc, hread 4 (a + 4) (by omega),
      Nat.add_assoc, hread 4 (a + 8) (by omega)]
  have hmagic : leAt 4 out base = leAt 4 d base := hread 4 0 (by omega)
  rw [parseMetadata_natCast (by omega), parseMetadata_natCast (by omega), hmagic,
    hread 2 4 (by omega), hread 2 6 (by omega), hread 4 8 (by omega),
    hread 4 H_TABLES_SIZE (by decide), hdesc H_PARTITIONS (by decide), hdesc H_EXTENTS (by decide),
    hdesc H_GROUPS (by decide), hdesc H_DEVICES (by decide)]

/-- The content is read from the region of its slot, where the tables are. -/
theorem contentOf_congr (hparse : parseMetadata d base = .ok (some m))
    (hinside : TablesInside d maxSize base)
    (hwindow : window out base maxSize = window d base maxSize) :
    contentOf out m = contentOf d m := by
  have hbase := base_of_parseMetadata hparse
  have hhdr : m.hdrSize ≤ maxSize := by
    have := hinside m hparse m.partitions (by simp)
    omega
  have hheader : ∀ x : Bytes, pySlice x m.base (m.base + m.hdrSize)
      = window (window x base maxSize) 0 m.hdrSize := by
    intro x
    rw [header_eq_window hbase, window_window (by omega), Nat.add_zero]
  have htable : ∀ x : Bytes, ∀ t ∈ [m.partitions, m.extents, m.groups, m.devices],
      tableBlob x m t
        = window (window x base maxSize) (m.hdrSize + t.offset) (t.numEntries * t.entrySize) := by
    intro x t ht
    rw [tableBlob_eq_window hbase, window_window (hinside m hparse t ht), ← Nat.add_assoc]
  have hentries : ∀ t ∈ [m.partitions, m.extents, m.groups, m.devices],
      entries out m t = entries d m t := by
    intro t ht
    rw [entries_eq_tableBlob hbase, entries_eq_tableBlob hbase, htable out t ht, htable d t ht,
      hwindow]
  rw [contentOf, contentOf, hheader out, hheader d, htable out m.groups (by simp),
    htable d m.groups (by simp), htable out m.devices (by simp), htable d m.devices (by simp),
    hentries m.partitions (by simp), hentries m.extents (by simp), hwindow]

/-- Tables inside the slot have no entry cut short. -/
theorem Regrown.whole_of_inside {idx : ℕ} {p : PartContent} {newExt : Bytes}
    {parts' : List Bytes} {hdr tables : Bytes}
    (h : Regrown sha d base m target newSize b idx p newExt parts' hdr tables)
    (hparse : parseMetadata d base = .ok (some m)) (hinside : TablesInside d maxSize base)
    (hin : base + maxSize ≤ d.length) : (contentOf d m).Whole := by
  have hend : ∀ t ∈ [m.partitions, m.extents, m.groups, m.devices],
      base + m.hdrSize + t.offset + t.numEntries * t.entrySize ≤ d.length := by
    intro t ht
    have := hinside m hparse t ht
    omega
  have hentry : ∀ t ∈ [m.partitions, m.extents, m.groups, m.devices],
      ∀ e ∈ entries d m t, e.length = t.entrySize := by
    intro t ht e he
    rw [entries_eq_records h.base_eq] at he
    exact length_of_mem_records (hend t ht) he
  have htable : ∀ t ∈ [m.partitions, m.extents, m.groups, m.devices],
      (tableBlob d m t).length = t.numEntries * t.entrySize := by
    intro t ht
    rw [tableBlob_eq_window h.base_eq, length_window_of_le (hend t ht)]
  refine ⟨h.entries_full.mp ?_, h.extents_full.mp ?_, htable m.groups (by simp),
    htable m.devices (by simp)⟩
  · exact (forall_length_iff (· = m.partitions.entrySize) h.entries_spec.1).mpr
      (hentry m.partitions (by simp))
  · intro e he
    rcases mem_flatten_modify he with he | rfl
    · obtain ⟨lst, hlst, he⟩ := List.mem_flatten.mp he
      obtain ⟨p, -, rfl⟩ := List.mem_map.mp hlst
      exact hentry m.extents (by simp) e (List.mem_of_mem_drop (List.mem_of_mem_take he))
    · exact h.length_newExt

/-- A copy whose target is large enough is not grown. -/
theorem not_grown {p : LogicalPartition} {idx : ℕ} (hparse : parseMetadata d base = .ok (some m))
    (hidx : indexOf target (entries d m m.partitions) = some idx)
    (hp : (logicalPartitions d m)[idx]? = some p) (hlarge : ceilSectors newSize ≤ p.sectors)
    (h : patchSlot sha d base target newSize = .ok r) : r = none := by
  cases r with
  | none => rfl
  | some b =>
    obtain ⟨_, _, plan, idx', cur, _, _, -, hplan, hidx', hcur, hgrows⟩ :=
      patchSlot_eq_some hparse h
    obtain rfl := Option.some.inj (hidx.symm.trans hidx')
    obtain ⟨entry, lst, -, -, -, hp', rfl⟩ := target_of_plan hplan hidx' hcur
    obtain rfl := Option.some.inj (hp.symm.trans hp')
    exact absurd hgrows.small (not_lt.mpr hlarge)

/-- A copy that has just grown is large enough. -/
theorem grown_settled (hparse : parseMetadata d base = .ok (some m))
    (hinside : TablesInside d maxSize base) (hin : base + maxSize ≤ d.length)
    (hlen : out.length = d.length) (hgrown : patchSlot sha d base target newSize = .ok (some b))
    (hwindow : window out base maxSize = padded maxSize b)
    (h : patchSlot sha out base target newSize = .ok r) : r = none := by
  obtain ⟨idx, _, e, _, _, _, hregrown⟩ := patchSlot_regrown hparse hgrown
  have hdrop : out.drop base
      = b ++ (List.replicate (maxSize - b.length) 0 ++ out.drop (base + maxSize)) := by
    rw [← List.append_assoc, ← padded, ← hwindow, window, ← List.drop_drop, List.take_append_drop]
  obtain ⟨m', hparse', -, hcontent⟩ := copyContent_eq_some (hregrown.content_eq
    (hregrown.whole_of_inside hparse hinside hin)
    (List.replicate (maxSize - b.length) 0 ++ out.drop (base + maxSize)))
  obtain ⟨p, hidx, hp, hlarge⟩ := hregrown.target_grown hcontent
  rw [patchSlot_drop (by omega), hdrop] at h
  exact not_grown hparse' hidx hp hlarge h

/-- A copy that was left alone is left alone again. -/
theorem untouched_settled (h128 : 128 ≤ maxSize) (hinside : TablesInside d maxSize base)
    (hin : base + maxSize ≤ d.length) (hlen : out.length = d.length)
    (hnone : patchSlot sha d base target newSize = .ok none)
    (hwindow : window out base maxSize = window d base maxSize)
    (h : patchSlot sha out base target newSize = .ok r) : r = none := by
  have hsame := parseMetadata_congr h128 hin hlen hwindow
  rcases patchSlot_eq_ok hnone with ⟨hparse, -⟩ | ⟨m, hparse, -⟩
  · rw [patchSlot, hsame, hparse] at h
    exact (pure_eq_ok.mp h).symm
  · exact patchSlot_eq_of_content (contentOf_congr hparse hinside hwindow)
      (hsame.trans hparse) hparse h hnone

/-- **A second run finds nothing to do** for a copy, whatever the first one made of it. -/
theorem copy_settled {first : Option Bytes} (h128 : 128 ≤ maxSize)
    (hinside : TablesInside d maxSize base) (hin : base + maxSize ≤ d.length)
    (hlen : out.length = d.length) (hfirst : patchSlot sha d base target newSize = .ok first)
    (hwindow : window out base maxSize = copyAfter d base maxSize first)
    (h : patchSlot sha out base target newSize = .ok r) : r = none := by
  cases first with
  | none => exact untouched_settled h128 hinside hin hlen hfirst hwindow h
  | some b =>
    obtain ⟨m, hparse⟩ := parsed_of_grown hfirst
    exact grown_settled hparse hinside hin hlen hfirst hwindow h

end Settled

/-! ### The whole run -/

/-- The region of the copy at `base`, after the run: as it was, where `patch_slot` had nothing to
do, or the new metadata followed by zeros. -/
def CopyWritten (sha : Sha256) (d : Bytes) (base maxSize : ℕ) (target : Text) (newSize : ℤ)
    (out : Bytes) : Prop :=
  (patchSlot sha d base target newSize = .ok none ∧
    window out base maxSize = window d base maxSize) ∨
  ∃ b, patchSlot sha d base target newSize = .ok (some b) ∧ b.length ≤ maxSize ∧
    window out base maxSize = b ++ List.replicate (maxSize - b.length) 0

/-- The output of a run for slot `k`: as long as the input, and different in the two copies of the
slot only. -/
structure Framed (sha : Sha256) (d : Bytes) (g : Geometry) (k : ℕ) (target : Text) (newSize : ℤ)
    (out : Bytes) : Prop where
  length_eq : out.length = d.length
  outside : ∀ i, (i < g.primary k ∨ g.primary k + g.maxSize ≤ i) →
    (i < g.backup k ∨ g.backup k + g.maxSize ≤ i) → out[i]? = d[i]?
  /-- Both geometry blocks. -/
  geometry : window out GEOMETRY_OFFSET (2 * GEOMETRY_SIZE)
    = window d GEOMETRY_OFFSET (2 * GEOMETRY_SIZE)
  others : ∀ j < g.slotCount, j ≠ k →
    window out (g.primary j) g.maxSize = window d (g.primary j) g.maxSize ∧
      window out (g.backup j) g.maxSize = window d (g.backup j) g.maxSize
  primary : CopyWritten sha d (g.primary k) g.maxSize target newSize out
  backup : CopyWritten sha d (g.backup k) g.maxSize target newSize out

section Run

variable {sha : Sha256} {d out b : Bytes} {base maxSize k j : ℕ} {target : Text} {newSize : ℤ}
  {g : Geometry} {r r' : Option Bytes} {old : Option Bytes}

theorem run_eq_ok (h : main sha d target newSize k = .ok out) :
    run sha d target newSize k old = (some out, true) := by
  rw [run, h]

theorem run_exit_zero (h : (run sha d target newSize k old).2 = true) :
    ∃ out, main sha d target newSize k = .ok out := by
  rw [run] at h
  cases hmain : main sha d target newSize k with
  | ok out => exact ⟨out, rfl⟩
  | error e =>
    rw [hmain] at h
    exact (nomatch h)

theorem run_refused (h : ∀ out, main sha d target newSize k ≠ .ok out) :
    run sha d target newSize k old = (old, false) := by
  rw [run]
  cases hmain : main sha d target newSize k with
  | ok out => exact absurd hmain (h out)
  | error e => rfl

theorem getElem?_putCopy (hin : base + maxSize ≤ d.length) (hr : ∀ b ∈ r, b.length ≤ maxSize)
    {i : ℕ} (h : i < base ∨ base + maxSize ≤ i) : (putCopy d base maxSize r)[i]? = d[i]? := by
  cases r with
  | none => rfl
  | some b =>
    have hlen := length_padded (hr b rfl)
    rw [putCopy, getElem?_splice (by omega), if_neg (by omega)]

/-- Different slots are apart. -/
theorem Geometry.apart (g : Geometry) (h : j ≠ k) :
    (g.primary j + g.maxSize ≤ g.primary k ∨ g.primary k + g.maxSize ≤ g.primary j) ∧
      (g.backup j + g.maxSize ≤ g.backup k ∨ g.backup k + g.maxSize ≤ g.backup j) := by
  have hstep : ∀ a b, a < b → a * g.maxSize + g.maxSize ≤ b * g.maxSize := by
    intro a b hab
    rw [← Nat.succ_mul]
    exact Nat.mul_le_mul_right _ hab
  rw [Geometry.primary, Geometry.backup, Geometry.primary, Geometry.backup]
  rcases lt_or_gt_of_ne h with hlt | hlt
  · have := hstep j k hlt
    omega
  · have := hstep k j hlt
    omega

theorem readGeometry_congr (hlen : out.length = d.length)
    (hwindow : window out GEOMETRY_OFFSET (2 * GEOMETRY_SIZE)
      = window d GEOMETRY_OFFSET (2 * GEOMETRY_SIZE)) :
    readGeometry out = readGeometry d := by
  have hread : ∀ a n, a + n ≤ 2 * GEOMETRY_SIZE →
      unpackFrom out (GEOMETRY_OFFSET + a : ℕ) n = unpackFrom d (GEOMETRY_OFFSET + a : ℕ) n := by
    intro a n ha
    refine unpackFrom_congr hlen ?_
    rw [← window_window ha, hwindow, window_window ha]
  have hmagic : unpackFrom out GEOMETRY_OFFSET 8 = unpackFrom d GEOMETRY_OFFSET 8 :=
    hread 0 8 (by decide)
  rw [readGeometry, readGeometry, hmagic, hread 40 12 (by decide)]

/-- Nothing grows in a slot that is smaller than a header. -/
theorem header_le_of_grown (h : patchSlot sha d base target newSize = .ok (some b)) :
    128 ≤ b.length := by
  obtain ⟨m, hparse⟩ := parsed_of_grown h
  obtain ⟨_, _, _, _, _, _, hregrown⟩ := patchSlot_regrown hparse h
  have hbuilt := hregrown.rebuilt
  rw [hbuilt.blob_eq, List.length_append, hbuilt.length_hdr]
  have := hbuilt.hdrSize
  omega

theorem copyWritten_iff (hr : patchSlot sha d base target newSize = .ok r)
    (hsize : ∀ b ∈ r, b.length ≤ maxSize) :
    CopyWritten sha d base maxSize target newSize out ↔
      window out base maxSize = copyAfter d base maxSize r := by
  rw [CopyWritten, hr]
  cases r with
  | none => simp [copyAfter]
  | some b =>
    have hb := hsize b rfl
    simp [copyAfter, padded, hb]

/-- **What a run that exits 0 writes**, and where it can grow nothing any more. -/
theorem main_framed (h : main sha d target newSize k = .ok out) :
    ∃ g r r', readGeometry d = .ok g ∧ k < g.slotCount ∧
      metaBase + g.maxSize * g.slotCount * 2 ≤ d.length ∧ 128 ≤ g.maxSize ∧
      patchSlot sha d (g.primary k) target newSize = .ok r ∧
      patchSlot sha d (g.backup k) target newSize = .ok r' ∧ (r ≠ none ∨ r' ≠ none) ∧
      window out (g.primary k) g.maxSize = copyAfter d (g.primary k) g.maxSize r ∧
      window out (g.backup k) g.maxSize = copyAfter d (g.backup k) g.maxSize r' ∧
      Framed sha d g k target newSize out := by
  obtain ⟨g, r, r', hg, hk, hroom, hr, hr', hsize, hsize', hgrown, rfl⟩ := main_eq_ok h
  obtain ⟨hfirst, hprimary, hmiddle, hbackup⟩ := g.slots hk
  have hlen := length_putCopy (show g.primary k + g.maxSize ≤ d.length by omega) hsize
  have hlen' := length_putCopy (d := putCopy d (g.primary k) g.maxSize r)
    (show g.backup k + g.maxSize ≤ _ by omega) hsize'
  have h128 : 128 ≤ g.maxSize := by
    rcases hgrown with hgrown | hgrown
    · obtain ⟨b, rfl⟩ := Option.ne_none_iff_exists'.mp hgrown
      exact (header_le_of_grown hr).trans (hsize b rfl)
    · obtain ⟨b, rfl⟩ := Option.ne_none_iff_exists'.mp hgrown
      exact (header_le_of_grown hr').trans (hsize' b rfl)
  have hwindow : window (putCopy (putCopy d (g.primary k) g.maxSize r) (g.backup k) g.maxSize r')
      (g.primary k) g.maxSize = copyAfter d (g.primary k) g.maxSize r := by
    rw [window_putCopy_of_disjoint (by omega) hsize' (by omega), window_putCopy (by omega) hsize]
  have hwindow' : window (putCopy (putCopy d (g.primary k) g.maxSize r) (g.backup k) g.maxSize r')
      (g.backup k) g.maxSize = copyAfter d (g.backup k) g.maxSize r' := by
    rw [window_putCopy (by omega) hsize']
    cases r' with
    | none => exact window_putCopy_of_disjoint (by omega) hsize (by omega)
    | some b' => rfl
  have houtside : ∀ i, (i < g.primary k ∨ g.primary k + g.maxSize ≤ i) →
      (i < g.backup k ∨ g.backup k + g.maxSize ≤ i) →
      (putCopy (putCopy d (g.primary k) g.maxSize r) (g.backup k) g.maxSize r')[i]? = d[i]? := by
    intro i hi hi'
    rw [getElem?_putCopy (by omega) hsize' hi', getElem?_putCopy (by omega) hsize hi]
  have hbase : metaBase = 12288 := rfl
  refine ⟨g, r, r', hg, hk, hroom, h128, hr, hr', hgrown, hwindow, hwindow', hlen'.trans hlen,
    houtside, ?_, ?_, (copyWritten_iff hr hsize).mpr hwindow,
    (copyWritten_iff hr' hsize').mpr hwindow'⟩
  · refine window_congr fun i _ hi => houtside i ?_ ?_ <;>
      rw [GEOMETRY_OFFSET, GEOMETRY_SIZE] at hi <;> omega
  · intro j hj hne
    obtain ⟨-, hprimaryj, hmiddlej, -⟩ := g.slots hj
    obtain ⟨hapart, hapart'⟩ := g.apart hne
    constructor
    · refine window_congr fun i hlo hhi => houtside i ?_ ?_ <;> omega
    · refine window_congr fun i hlo hhi => houtside i ?_ ?_ <;> omega

/-- **A run writes all of the change or nothing, and a second one nothing**: a run that does not
exit 0, be it that it refuses or that there is nothing to do for either copy, leaves the output file
as it was; one that exits 0 changes the two copies only, and the same request finds nothing to do in
its output. -/
theorem run_framed
    (hinside : ∀ g, readGeometry d = .ok g →
      TablesInside d g.maxSize (g.primary k) ∧ TablesInside d g.maxSize (g.backup k)) :
    ((run sha d target newSize k old).2 = false → (run sha d target newSize k old).1 = old) ∧
    (∀ g, readGeometry d = .ok g → patchSlot sha d (g.primary k) target newSize = .ok none →
      patchSlot sha d (g.backup k) target newSize = .ok none →
      run sha d target newSize k old = (old, false)) ∧
    ((run sha d target newSize k old).2 = true → ∃ g out, readGeometry d = .ok g ∧
      k < g.slotCount ∧ (run sha d target newSize k old).1 = some out ∧
      Framed sha d g k target newSize out ∧
      ∀ old', run sha out target newSize k old' = (old', false)) := by
  refine ⟨?_, ?_, ?_⟩
  · intro hexit
    rw [run_refused]
    intro out hout
    rw [run_eq_ok hout] at hexit
    exact absurd hexit (by simp)
  · intro g hg hr hr'
    refine run_refused ?_
    intro out hout
    obtain ⟨g', _, _, hg', -, -, -, hs, hs', hgrown, -⟩ := main_framed hout
    obtain rfl := Except.ok.inj (hg'.symm.trans hg)
    obtain rfl := Except.ok.inj (hs.symm.trans hr)
    obtain rfl := Except.ok.inj (hs'.symm.trans hr')
    simp at hgrown
  · intro hexit
    obtain ⟨out, hout⟩ := run_exit_zero hexit
    obtain ⟨g, r, r', hg, hk, hroom, h128, hr, hr', -, hwindow, hwindow', hframed⟩ :=
      main_framed hout
    refine ⟨g, out, hg, hk, by rw [run_eq_ok hout], hframed, fun old' => run_refused ?_⟩
    intro out₂ hout₂
    obtain ⟨g₂, r₂, r₂', hg₂, -, -, -, hr₂, hr₂', hgrown₂, -⟩ := main_framed hout₂
    obtain rfl : g₂ = g := by
      rw [readGeometry_congr hframed.length_eq hframed.geometry, hg] at hg₂
      exact (Except.ok.inj hg₂).symm
    obtain ⟨-, hprimary, hmiddle, hbackup⟩ := g₂.slots hk
    obtain rfl := copy_settled h128 (hinside g₂ hg).1 (by omega) hframed.length_eq hr hwindow hr₂
    obtain rfl := copy_settled h128 (hinside g₂ hg).2 (by omega) hframed.length_eq hr' hwindow' hr₂'
    simp at hgrown₂

end Run

/-- A copy of the small slot has its tables inside. -/
theorem tablesInside_small {p : ℕ} (hin : p + 368 ≤ smallDump.length)
    (hstands : window smallDump p smallSlot.length = smallSlot) : TablesInside smallDump 512 p := by
  intro m hm
  rw [slot_small_self.enclosed.parsed_placed (by rwa [length_smallSlot]) hstands] at hm
  rw [← Option.some.inj (Except.ok.inj hm)]
  exact fun t ht => (slot_small.tables_inside t ht).trans (by decide)

theorem run_framed_small :
    ∃ out, run smallSha smallDump ['a'] 8192 (0 : ℕ) none = (some out, true) ∧
      Framed smallSha smallDump smallGeometry 0 ['a'] 8192 out ∧
      run smallSha out ['a'] 8192 (0 : ℕ) none = (none, false) := by
  have hall := length_smallDump
  have hlen : (padded 512 smallSlot ++ padded 512 smallSlot).length = 1024 := by
    rw [List.length_append, length_padded_small]
  have hrun : run smallSha smallDump ['a'] 8192 (0 : ℕ) none = _ :=
    run_eq_ok (main_small 0 12288 (some grownSlot) (some grownSlot) hlen.ge (by decide) rfl
      (patchSlot_of_small (by rw [← smallDump]; omega) (primary_stands _))
      (patchSlot_of_small (by rw [← smallDump]; omega) backup_stands)
      fits_grownSlot fits_grownSlot (Or.inl (Option.some_ne_none _)))
  have hgeometry : readGeometry smallDump = .ok smallGeometry := readGeometry_small _
  have hinside : ∀ g, readGeometry smallDump = .ok g →
      TablesInside smallDump g.maxSize (g.primary 0) ∧
        TablesInside smallDump g.maxSize (g.backup 0) := by
    intro g hg
    obtain rfl := Except.ok.inj (hgeometry.symm.trans hg)
    exact ⟨tablesInside_small (by rw [hall]; decide) (primary_stands _),
      tablesInside_small (by rw [hall]; decide) backup_stands⟩
  obtain ⟨-, -, hexit⟩ := @run_framed smallSha smallDump 0 ['a'] 8192 none hinside
  obtain ⟨g, out, hg, -, hout, hframed, hagain⟩ := hexit (congrArg Prod.snd hrun)
  obtain rfl := Except.ok.inj (hgeometry.symm.trans hg)
  refine ⟨out, ?_, hframed, hagain none⟩
  rw [hrun] at hout
  rw [hrun, Option.some.inj hout]

end LpResize

end PalmaEos
