import PalmaEos.LpResizeGrowth

/-!
# The run of `lp-resize-partition.py`

`main` patches the primary and the backup copy of one metadata slot, each by itself: a copy without
a header, or in which the partition is large enough, is skipped. A slot number may be negative, and
then the offsets of the copies are.

## Main results

* `patchSlot_drop`, `Enclosed.patchSlot_placed` — growing a copy looks only at what stands from its
  start on, and only at its slot where header and tables lie inside that
* `main_eq_ok`, `main_of_patchSlot` — what a run that exits 0 has done to the two copies
-/

namespace PalmaEos

/-- Python's `d[i:j] = bs` on a `bytearray`. -/
def pyAssign {α : Type*} (d : List α) (i j : ℤ) (bs : List α) : List α :=
  d.take (sliceBound d.length i) ++ bs ++
    d.drop (max (sliceBound d.length i) (sliceBound d.length j))

theorem pyAssign_natCast {α : Type*} {d bs : List α} {a : ℕ} (h : a + bs.length ≤ d.length) :
    pyAssign d (a : ℤ) ((a : ℤ) + bs.length) bs = splice d a bs := by
  rw [pyAssign, ← Nat.cast_add, sliceBound_natCast, sliceBound_natCast, splice,
    Nat.min_eq_left (by omega), Nat.min_eq_left h, Nat.max_eq_right (by omega)]

namespace LpResize

/-- The calls of `die` in `main` and `read_geometry`, by the data of their messages. -/
inductive MainDie
  /-- no LP geometry magic at 4096 -/
  | noGeometryMagic (got : ℕ)
  /-- input is so many bytes, need at least (dump more of super) -/
  | tooShort (len need : ℕ)
  /-- slot >= slot_count -/
  | noSlot (slot : ℤ) (slotCount : ℕ)
  /-- patched metadata > metadata_max_size -/
  | tooLarge (len maxSize : ℕ)
  /-- nothing was patched -/
  | nothingPatched
  deriving DecidableEq

inductive MainError
  | die (e : MainDie)
  /-- From `patch_slot`, or an exception. -/
  | resize (e : ResizeError)
  deriving DecidableEq

/-- What `patch_slot` or `struct` raises, `main` raises. -/
def raise {α : Type} : Except ResizeError α → Except MainError α
  | .ok a => .ok a
  | .error e => .error (.resize e)

theorem raise_eq_ok {α : Type} {x : Except ResizeError α} {a : α} :
    raise x = .ok a ↔ x = .ok a := by
  cases x with
  | ok b => rw [raise, Except.ok.injEq, Except.ok.injEq]
  | error e => exact ⟨fun h => (nomatch h), fun h => (nomatch h)⟩

structure Geometry where
  maxSize : ℕ
  slotCount : ℕ
  blockSize : ℕ
  deriving DecidableEq

/-- `read_geometry`. -/
def readGeometry (d : Bytes) : Except MainError Geometry := do
  let b ← raise (unpackFrom d GEOMETRY_OFFSET 8)
  if leAt 4 b 0 ≠ GEOMETRY_MAGIC then .error (.die (.noGeometryMagic (leAt 4 b 0)))
  else
    let g ← raise (unpackFrom d (GEOMETRY_OFFSET + 40 : ℕ) 12)
    return ⟨leAt 4 g 0, leAt 4 g 4, leAt 4 g 8⟩

/-- `meta_base` -/
def metaBase : ℕ := GEOMETRY_OFFSET + 2 * GEOMETRY_SIZE

/-- One round of the loop over the two copies: the dump, and `patched`. -/
def patchCopy (sha : Sha256) (target : Text) (newSize : ℤ) (maxSize : ℕ) (base : ℤ) (d : Bytes)
    (patched : ℕ) : Except MainError (Bytes × ℕ) := do
  match ← raise (parseMetadata d base) with
  | none => return (d, patched)
  | some _ =>
    match ← raise (patchSlot sha d base target newSize) with
    | none => return (d, patched)
    | some b =>
      if maxSize < b.length then .error (.die (.tooLarge b.length maxSize))
      else
        let d := pyAssign d base (base + b.length) b
        let zeros := List.replicate (maxSize - b.length) 0
        return (pyAssign d (base + b.length) (base + maxSize) zeros, patched + 1)

/-- `main`, on the dump and the values of its arguments: what is written to the output file. -/
def main (sha : Sha256) (d : Bytes) (target : Text) (newSize slot : ℤ) :
    Except MainError Bytes := do
  let g ← readGeometry d
  let needBytes := metaBase + g.maxSize * g.slotCount * 2
  if d.length < needBytes then .error (.die (.tooShort d.length needBytes))
  else if (g.slotCount : ℤ) ≤ slot then .error (.die (.noSlot slot g.slotCount))
  else
    let primary := (metaBase : ℤ) + slot * g.maxSize
    let backup := (metaBase : ℤ) + g.maxSize * g.slotCount + slot * g.maxSize
    let (d, patched) ← patchCopy sha target newSize g.maxSize primary d 0
    let (d, patched) ← patchCopy sha target newSize g.maxSize backup d patched
    if patched = 0 then .error (.die .nothingPatched) else return d

/-! ### Growing a copy looks at nothing before it -/

theorem base_of_parseMetadata {d : Bytes} {base : ℤ} {m : Metadata}
    (h : parseMetadata d base = .ok (some m)) :
    m.base = base := by
  rw [parseMetadata] at h
  obtain ⟨b, -, h⟩ := bind_eq_ok.mp h
  split_ifs at h
  · exact absurd (pure_eq_ok.mp h) (by simp)
  · obtain ⟨t, -, h⟩ := bind_eq_ok.mp h
    obtain ⟨t₁, -, h⟩ := bind_eq_ok.mp h
    obtain ⟨t₂, -, h⟩ := bind_eq_ok.mp h
    obtain ⟨t₃, -, h⟩ := bind_eq_ok.mp h
    obtain ⟨t₄, -, h⟩ := bind_eq_ok.mp h
    rw [← Option.some.inj (pure_eq_ok.mp h)]

section Drop

variable {sha : Sha256} {d : Bytes} {base : ℕ} {m : Metadata} {target : Text} {newSize : ℤ}

theorem unpackFrom_drop (h : base ≤ d.length) (off n : ℕ) :
    unpackFrom d ((base : ℤ) + off) n = unpackFrom (d.drop base) (off : ℤ) n := by
  have hlen : (d.drop base).length = d.length - base := List.length_drop
  rw [unpackFrom, unpackFrom, ← Nat.cast_add, bufferAt_natCast, bufferAt_natCast, window_drop]
  by_cases hin : base + off + n ≤ d.length
  · rw [if_pos hin, if_pos (by omega)]
  · rw [if_neg hin, if_neg (by omega)]

/-- The metadata, for a dump that starts at the copy. -/
def Metadata.atStart (m : Metadata) : Metadata := { m with base := (0 : ℕ) }

theorem entries_drop (hbase : m.base = base) (t : LpUnpack.Descriptor) :
    entries d m t = entries (d.drop base) m.atStart t := by
  rw [entries_eq_records hbase, entries_eq_records (m := m.atStart) rfl, records, records]
  refine List.map_congr_left fun i _ => ?_
  rw [window_drop]
  congr 1
  change _ = base + (0 + m.hdrSize + t.offset + _)
  omega

theorem tableBlob_drop (hbase : m.base = base) (t : LpUnpack.Descriptor) :
    tableBlob d m t = tableBlob (d.drop base) m.atStart t := by
  rw [tableBlob_eq_window hbase, tableBlob_eq_window (m := m.atStart) rfl, window_drop]
  congr 1
  change _ = base + (0 + m.hdrSize + t.offset)
  omega

theorem header_drop (hbase : m.base = base) : pySlice d m.base (m.base + m.hdrSize)
    = pySlice (d.drop base) m.atStart.base (m.atStart.base + m.atStart.hdrSize) := by
  rw [header_eq_window hbase, header_eq_window (m := m.atStart) rfl, window_drop, Nat.add_zero]
  rfl

theorem patchParsed_drop (hbase : m.base = base) :
    patchParsed sha d m target newSize
      = patchParsed sha (d.drop base) m.atStart target newSize := by
  simp only [patchParsed, rebuild, deviceSizeSectors, entries_drop hbase, tableBlob_drop hbase,
    header_drop hbase]
  rfl

theorem parseMetadata_drop (h : base ≤ d.length) : parseMetadata (d.drop base) (0 : ℕ)
    = (parseMetadata d base).map (Option.map Metadata.atStart) := by
  have hfirst : ∀ n, unpackFrom d (base : ℤ) n = unpackFrom (d.drop base) ((0 : ℕ) : ℤ) n := by
    intro n
    rw [← unpackFrom_drop h, Nat.cast_zero, Int.add_zero]
  have hfield : ∀ off n : ℕ, unpackFrom (d.drop base) (((0 : ℕ) : ℤ) + off) n
      = unpackFrom (d.drop base) (off : ℤ) n := by
    intro off n
    rw [Nat.cast_zero, Int.zero_add]
  simp only [parseMetadata, descriptor, unpackFrom_drop h, hfirst, hfield]
  cases unpackFrom (d.drop base) ((0 : ℕ) : ℤ) 12 with
  | error e => rfl
  | ok b =>
    change (if leAt 4 b 0 ≠ HEADER_MAGIC then _ else _)
      = (if leAt 4 b 0 ≠ HEADER_MAGIC then _ else _ : Except ResizeError (Option Metadata)).map _
    split_ifs with hmagic
    · rfl
    · cases unpackFrom (d.drop base) (H_TABLES_SIZE : ℤ) 4 with
      | error e => rfl
      | ok t =>
        cases unpackFrom (d.drop base) (H_PARTITIONS : ℤ) 12 with
        | error e => rfl
        | ok t₁ =>
          cases unpackFrom (d.drop base) (H_EXTENTS : ℤ) 12 with
          | error e => rfl
          | ok t₂ =>
            cases unpackFrom (d.drop base) (H_GROUPS : ℤ) 12 with
            | error e => rfl
            | ok t₃ =>
              cases unpackFrom (d.drop base) (H_DEVICES : ℤ) 12 with
              | error e => rfl
              | ok t₄ => rfl

/-- **Growing a copy** looks only at what stands from its start on. -/
theorem patchSlot_drop (h : base ≤ d.length) : patchSlot sha d base target newSize
    = patchSlot sha (d.drop base) (0 : ℕ) target newSize := by
  rw [patchSlot, patchSlot, parseMetadata_drop h]
  cases hparse : parseMetadata d base with
  | error e => rfl
  | ok r =>
    cases r with
    | none => rfl
    | some m => exact patchParsed_drop (base_of_parseMetadata hparse)

end Drop

/-! ### Growing a copy looks at nothing outside its slot -/

/-- The metadata, in a dump where they start at `base`. -/
def Metadata.movedTo (m : Metadata) (base : ℕ) : Metadata := { m with base := base }

/-- The header and the tables lie inside the blob. -/
structure Enclosed (blob : Bytes) (m : Metadata) : Prop where
  parsed : parseMetadata blob (0 : ℕ) = .ok (some m)
  hdrSize : 128 ≤ m.hdrSize
  hdr_inside : m.hdrSize ≤ blob.length
  tables_inside : ∀ t ∈ [m.partitions, m.extents, m.groups, m.devices],
    m.hdrSize + t.offset + t.numEntries * t.entrySize ≤ blob.length

section Placed

variable {sha : Sha256} {image blob : Bytes} {base : ℕ} {m : Metadata} {target : Text}
  {newSize : ℤ} {t : LpUnpack.Descriptor}

theorem Slot.enclosed (h : Slot blob 0 blob.length m) : Enclosed blob m :=
  ⟨h.parsed, h.hdrSize, Nat.zero_add m.hdrSize ▸ h.hdr_inside, h.tables_inside⟩

theorem Enclosed.entries_placed (h : Enclosed blob m)
    (hstands : window image base blob.length = blob)
    (ht : t ∈ [m.partitions, m.extents, m.groups, m.devices]) :
    entries image (m.movedTo base) t = entries blob m t := by
  have hwindow := records_window (d := image) (a := base) (h.tables_inside t ht)
  rw [hstands] at hwindow
  rw [entries_eq_records (m := m.movedTo base) rfl,
    entries_eq_records (base_of_parseMetadata h.parsed), Nat.zero_add, Nat.add_assoc]
  exact hwindow.symm

theorem Enclosed.tableBlob_placed (h : Enclosed blob m)
    (hstands : window image base blob.length = blob)
    (ht : t ∈ [m.partitions, m.extents, m.groups, m.devices]) :
    tableBlob image (m.movedTo base) t = tableBlob blob m t := by
  have hwindow := window_window (d := image) (a := base) (h.tables_inside t ht)
  rw [hstands] at hwindow
  rw [tableBlob_eq_window (m := m.movedTo base) rfl,
    tableBlob_eq_window (base_of_parseMetadata h.parsed), Nat.zero_add, Nat.add_assoc]
  exact hwindow.symm

theorem Enclosed.header_placed (h : Enclosed blob m)
    (hstands : window image base blob.length = blob) :
    pySlice image (m.movedTo base).base ((m.movedTo base).base + (m.movedTo base).hdrSize)
      = pySlice blob m.base (m.base + m.hdrSize) := by
  have hinside := h.hdr_inside
  rw [header_eq_window (m := m.movedTo base) rfl,
    header_eq_window (base_of_parseMetadata h.parsed)]
  conv_rhs => rw [← hstands, window_window (by omega), Nat.add_zero]
  rfl

theorem Enclosed.parsed_placed (h : Enclosed blob m)
    (hin : base + blob.length ≤ image.length) (hstands : window image base blob.length = blob) :
    parseMetadata image base = .ok (some (m.movedTo base)) := by
  have hlen : 128 ≤ blob.length := h.hdrSize.trans h.hdr_inside
  have hread : ∀ w a, a + w ≤ blob.length → leAt w image (base + a) = leAt w blob a := by
    intro w a ha
    rw [← leAt_window ha, hstands]
  have hdesc : ∀ a, a + 12 ≤ blob.length → descAt image (base + a) = descAt blob a := by
    intro a ha
    rw [descAt, descAt, hread 4 a (by omega), Nat.add_assoc, hread 4 (a + 4) (by omega),
      Nat.add_assoc, hread 4 (a + 8) (by omega)]
  obtain ⟨hmagic, hm⟩ := eq_of_parseMetadata (by omega) h.parsed
  rw [parseMetadata_natCast (by omega), if_neg, hread 2 4 (by omega), hread 2 6 (by omega),
    hread 4 8 (by omega), H_TABLES_SIZE, H_PARTITIONS, H_EXTENTS, H_GROUPS, H_DEVICES,
    hread 4 44 (by omega), hdesc 0x50 (by omega), hdesc 0x5C (by omega), hdesc 104 (by omega),
    hdesc 116 (by omega)]
  · have hmoved := congrArg (fun x : Metadata => x.movedTo base) hm
    simp only [Nat.zero_add] at hmoved
    rw [hmoved]
    rfl
  · rw [← Nat.add_zero base, hread 4 0 (by omega), not_not]
    exact hmagic

/-- **Growing a copy** looks only at its slot. -/
theorem Enclosed.patchSlot_placed (h : Enclosed blob m)
    (hin : base + blob.length ≤ image.length) (hstands : window image base blob.length = blob) :
    patchSlot sha image base target newSize = patchSlot sha blob (0 : ℕ) target newSize := by
  have hentries := fun t ht => h.entries_placed hstands (t := t) ht
  have htables := fun t ht => h.tableBlob_placed hstands (t := t) ht
  rw [patchSlot, patchSlot, h.parsed_placed hin hstands, h.parsed]
  change patchParsed sha image (m.movedTo base) target newSize
    = patchParsed sha blob m target newSize
  have hdevice : deviceSizeSectors image (m.movedTo base) = deviceSizeSectors blob m := by
    rw [deviceSizeSectors, deviceSizeSectors, ← hentries m.devices (by simp)]
    rfl
  have hrebuild : ∀ parts plan,
      rebuild sha image (m.movedTo base) parts plan = rebuild sha blob m parts plan := by
    intro parts plan
    rw [rebuild, rebuild, ← htables m.groups (by simp), ← htables m.devices (by simp),
      ← h.header_placed hstands]
    rfl
  rw [patchParsed, patchParsed, hdevice, ← hentries m.partitions (by simp),
    ← hentries m.extents (by simp), ← hentries m.groups (by simp)]
  simp only [hrebuild]
  rfl

end Placed

/-! ### The two copies after a run -/

/-- A copy of `maxSize` bytes that holds `b`. -/
def padded (maxSize : ℕ) (b : Bytes) : Bytes := b ++ List.replicate (maxSize - b.length) 0

/-- The dump after the round for the copy at `base`, which gave `r`. -/
def putCopy (d : Bytes) (base maxSize : ℕ) : Option Bytes → Bytes
  | none => d
  | some b => splice d base (padded maxSize b)

/-- Where the primary copy of slot `k` starts. -/
def Geometry.primary (g : Geometry) (k : ℕ) : ℕ := metaBase + k * g.maxSize

/-- Where the backup copy of slot `k` starts. -/
def Geometry.backup (g : Geometry) (k : ℕ) : ℕ :=
  metaBase + g.maxSize * g.slotCount + k * g.maxSize

/-- A copy is where its slot is, after the geometry and before the end. -/
theorem Geometry.slots (g : Geometry) {k : ℕ} (hk : k < g.slotCount) :
    metaBase ≤ g.primary k ∧ g.primary k + g.maxSize ≤ metaBase + g.maxSize * g.slotCount ∧
      metaBase + g.maxSize * g.slotCount ≤ g.backup k ∧
      g.backup k + g.maxSize ≤ metaBase + g.maxSize * g.slotCount * 2 := by
  have hroom : k * g.maxSize + g.maxSize ≤ g.maxSize * g.slotCount := by
    rw [← Nat.succ_mul, Nat.mul_comm g.maxSize]
    exact Nat.mul_le_mul_right _ hk
  rw [Geometry.primary, Geometry.backup]
  omega

section Run

variable {sha : Sha256} {d d' out b : Bytes} {base maxSize n n' k : ℕ} {target : Text}
  {newSize : ℤ} {g : Geometry} {r : Option Bytes}

theorem length_padded (h : b.length ≤ maxSize) : (padded maxSize b).length = maxSize := by
  rw [padded, List.length_append, List.length_replicate]
  omega

theorem length_putCopy (hin : base + maxSize ≤ d.length) (hr : ∀ b ∈ r, b.length ≤ maxSize) :
    (putCopy d base maxSize r).length = d.length := by
  cases r with
  | none => rfl
  | some b => rw [putCopy, length_splice (by rw [length_padded (hr b rfl)]; exact hin)]

theorem window_putCopy_of_disjoint (hin : base + maxSize ≤ d.length)
    (hr : ∀ b ∈ r, b.length ≤ maxSize) {a m : ℕ} (h : a + m ≤ base ∨ base + maxSize ≤ a) :
    window (putCopy d base maxSize r) a m = window d a m := by
  cases r with
  | none => rfl
  | some b =>
    have hlen := length_padded (hr b rfl)
    rw [putCopy, window_splice_of_disjoint (by omega) (by omega)]

theorem window_putCopy_self (hin : base + maxSize ≤ d.length) (hb : b.length ≤ maxSize) :
    window (putCopy d base maxSize (some b)) base maxSize = padded maxSize b := by
  have hself : window (splice d base (padded maxSize b)) base (padded maxSize b).length
      = padded maxSize b := window_splice_self (by rw [length_padded hb]; exact hin)
  rwa [length_padded hb] at hself

theorem drop_putCopy (hin : base + maxSize ≤ d.length) (hr : ∀ b ∈ r, b.length ≤ maxSize) {a : ℕ}
    (h : base + maxSize ≤ a) : (putCopy d base maxSize r).drop a = d.drop a := by
  cases r with
  | none => rfl
  | some b =>
    have hlen := length_padded (hr b rfl)
    exact drop_splice (by omega) (by omega)

theorem pyAssign_padded (hin : base + maxSize ≤ d.length) (hb : b.length ≤ maxSize) :
    pyAssign (pyAssign d base (base + b.length) b) (base + b.length) (base + maxSize)
      (List.replicate (maxSize - b.length) 0) = putCopy d base maxSize (some b) := by
  have hzeros : (List.replicate (maxSize - b.length) (0 : UInt8)).length = maxSize - b.length :=
    List.length_replicate
  have hlen : (splice d base b).length = d.length := length_splice (by omega)
  have hend : (base : ℤ) + maxSize
      = ((base + b.length : ℕ) : ℤ) + (List.replicate (maxSize - b.length) (0 : UInt8)).length := by
    rw [hzeros]
    omega
  rw [pyAssign_natCast (by omega), hend, ← Nat.cast_add, pyAssign_natCast (by omega),
    splice_splice_right _ _ _ (by omega), putCopy, padded]

/-- One round of the loop, on a copy inside the dump. -/
theorem patchCopy_eq_ok (hin : base + maxSize ≤ d.length) :
    patchCopy sha target newSize maxSize base d n = .ok (d', n') ↔
      ∃ r, patchSlot sha d base target newSize = .ok r ∧ (∀ b ∈ r, b.length ≤ maxSize) ∧
        d' = putCopy d base maxSize r ∧ n' = n + r.toList.length := by
  rw [patchCopy]
  constructor
  · intro h
    obtain ⟨parsed, hparsed, h⟩ := bind_eq_ok.mp h
    have hparsed := raise_eq_ok.mp hparsed
    cases parsed with
    | none =>
      obtain ⟨rfl, rfl⟩ := Prod.mk.injEq .. ▸ pure_eq_ok.mp h
      refine ⟨none, ?_, by simp, rfl, rfl⟩
      rw [patchSlot, hparsed]
      rfl
    | some m =>
      obtain ⟨r, hr, h⟩ := bind_eq_ok.mp h
      have hr := raise_eq_ok.mp hr
      cases r with
      | none =>
        obtain ⟨rfl, rfl⟩ := Prod.mk.injEq .. ▸ pure_eq_ok.mp h
        exact ⟨none, hr, by simp, rfl, rfl⟩
      | some b =>
        obtain ⟨hsize, h⟩ := guard_eq_ok.mp h
        obtain ⟨hd', rfl⟩ := Prod.mk.injEq .. ▸ pure_eq_ok.mp h
        have hb : b.length ≤ maxSize := not_lt.mp hsize
        refine ⟨some b, hr, fun c hc => Option.some.inj hc ▸ hb, ?_, rfl⟩
        rw [← hd', pyAssign_padded hin hb]
  · rintro ⟨r, hr, hsize, rfl, rfl⟩
    have hparsed : ∃ parsed, parseMetadata d base = .ok parsed := by
      rw [patchSlot] at hr
      obtain ⟨parsed, hparsed, -⟩ := bind_eq_ok.mp hr
      exact ⟨parsed, hparsed⟩
    obtain ⟨parsed, hparsed⟩ := hparsed
    refine bind_eq_ok.mpr ⟨parsed, raise_eq_ok.mpr hparsed, ?_⟩
    cases parsed with
    | none =>
      rw [patchSlot, hparsed] at hr
      obtain rfl := pure_eq_ok.mp hr
      rfl
    | some m =>
      refine bind_eq_ok.mpr ⟨r, raise_eq_ok.mpr hr, ?_⟩
      cases r with
      | none => rfl
      | some b =>
        exact guard_eq_ok.mpr ⟨not_lt.mpr (hsize b rfl),
          pure_eq_ok.mpr (Prod.ext (pyAssign_padded hin (hsize b rfl)) rfl)⟩

/-- **What a run that exits 0 has done**, for a slot that is not negative: the slot exists, and each
copy is what `patch_slot` made of the one in the input. -/
theorem main_eq_ok (h : main sha d target newSize k = .ok out) :
    ∃ g r r', readGeometry d = .ok g ∧ k < g.slotCount ∧
      metaBase + g.maxSize * g.slotCount * 2 ≤ d.length ∧
      patchSlot sha d (g.primary k) target newSize = .ok r ∧
      patchSlot sha d (g.backup k) target newSize = .ok r' ∧
      (∀ b ∈ r, b.length ≤ g.maxSize) ∧ (∀ b ∈ r', b.length ≤ g.maxSize) ∧
      (r ≠ none ∨ r' ≠ none) ∧
      out = putCopy (putCopy d (g.primary k) g.maxSize r) (g.backup k) g.maxSize r' := by
  rw [main] at h
  obtain ⟨g, hg, h⟩ := bind_eq_ok.mp h
  obtain ⟨hneed, h⟩ := guard_eq_ok.mp h
  obtain ⟨hslot, h⟩ := guard_eq_ok.mp h
  obtain ⟨⟨d₁, n₁⟩, h₁, h⟩ := bind_eq_ok.mp h
  obtain ⟨⟨d₂, n₂⟩, h₂, h⟩ := bind_eq_ok.mp h
  obtain ⟨hpatched, h⟩ := guard_eq_ok.mp h
  obtain rfl := pure_eq_ok.mp h
  have hk : k < g.slotCount := by omega
  obtain ⟨-, hend, hmiddle, hend'⟩ := g.slots hk
  have hprimary : ((metaBase : ℤ) + (k : ℤ) * g.maxSize) = (g.primary k : ℕ) := by
    rw [Geometry.primary]
    push_cast
    rfl
  have hbackup : ((metaBase : ℤ) + g.maxSize * g.slotCount + (k : ℤ) * g.maxSize)
      = (g.backup k : ℕ) := by
    rw [Geometry.backup]
    push_cast
    rfl
  have hp : g.primary k + g.maxSize ≤ d.length := by omega
  have hb : g.backup k + g.maxSize ≤ d.length := by omega
  have hapart : g.primary k + g.maxSize ≤ g.backup k := by omega
  rw [hprimary] at h₁
  rw [hbackup] at h₂
  obtain ⟨r, hr, hsize, rfl, rfl⟩ := (patchCopy_eq_ok hp).mp h₁
  have hlen := length_putCopy hp hsize
  obtain ⟨r', hr', hsize', rfl, rfl⟩ := (patchCopy_eq_ok (by rw [hlen]; exact hb)).mp h₂
  -- the backup is judged on the dump with the new primary copy, which stands before it
  rw [patchSlot_drop (by omega), drop_putCopy hp hsize hapart, ← patchSlot_drop (by omega)] at hr'
  refine ⟨g, r, r', hg, hk, by omega, hr, hr', hsize, hsize', ?_, rfl⟩
  cases r with
  | some b => exact Or.inl (by simp)
  | none =>
    cases r' with
    | some b => exact Or.inr (by simp)
    | none => exact absurd rfl hpatched

/-- The result of a run, from those of its two rounds. The slot number may be negative, as long as
the offsets of the two copies are not. -/
theorem main_of_patchSlot {slot : ℤ} {p q : ℕ} {r' : Option Bytes} (hg : readGeometry d = .ok g)
    (hneed : metaBase + g.maxSize * g.slotCount * 2 ≤ d.length) (hslot : slot < g.slotCount)
    (hp : (metaBase : ℤ) + slot * g.maxSize = p)
    (hq : (metaBase : ℤ) + g.maxSize * g.slotCount + slot * g.maxSize = q)
    (hpq : p + g.maxSize ≤ q) (hq' : q + g.maxSize ≤ d.length)
    (hr : patchSlot sha d p target newSize = .ok r)
    (hr' : patchSlot sha d q target newSize = .ok r')
    (hsize : ∀ b ∈ r, b.length ≤ g.maxSize) (hsize' : ∀ b ∈ r', b.length ≤ g.maxSize)
    (hgrown : r ≠ none ∨ r' ≠ none) :
    main sha d target newSize slot
      = .ok (putCopy (putCopy d p g.maxSize r) q g.maxSize r') := by
  have hlen := length_putCopy (show p + g.maxSize ≤ d.length by omega) hsize
  rw [main]
  refine bind_eq_ok.mpr ⟨g, hg, guard_eq_ok.mpr ⟨not_lt.mpr hneed, guard_eq_ok.mpr
    ⟨not_le.mpr hslot, ?_⟩⟩⟩
  rw [hp, hq]
  refine bind_eq_ok.mpr ⟨_, (patchCopy_eq_ok (by omega)).mpr ⟨r, hr, hsize, rfl, rfl⟩, ?_⟩
  refine bind_eq_ok.mpr ⟨_, (patchCopy_eq_ok (by omega)).mpr ⟨r', ?_, hsize', rfl, rfl⟩, ?_⟩
  · rwa [patchSlot_drop (by omega), drop_putCopy (by omega) hsize hpq, ← patchSlot_drop (by omega)]
  · refine guard_eq_ok.mpr ⟨?_, rfl⟩
    rcases hgrown with hgrown | hgrown
    · obtain ⟨b, rfl⟩ := Option.ne_none_iff_exists'.mp hgrown
      simp
    · obtain ⟨b, rfl⟩ := Option.ne_none_iff_exists'.mp hgrown
      simp

end Run

end LpResize

end PalmaEos
