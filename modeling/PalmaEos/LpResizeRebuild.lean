import PalmaEos.LpResize

/-!
# Reading and rebuilding a metadata slot

`Slot` says what well-formed metadata are, and `logicalPartitions` decodes them into partitions
that own their extents. The rebuilt slot, with its tables back to back and every index regenerated,
decodes to the partitions it was built from.

## Main results

* `parseMetadata_natCast` — reading a header, in one equation
* `reindex_spec` — the regenerated indices give every partition its own extents
* `rebuild_decodes` — the rebuilt slot
-/

namespace PalmaEos

namespace LpResize

open LpUnpack (Descriptor Extent)

/-! ### The primitives, on offsets from the start -/

section Primitives

variable {d b out : Bytes} {a n : ℕ}

theorem unpackFrom_eq_ok :
    unpackFrom d (a : ℤ) n = .ok b ↔ a + n ≤ d.length ∧ b = window d a n := by
  rw [unpackFrom, bufferAt_natCast]
  split_ifs with h
  · constructor
    · intro hb
      exact ⟨h, (Except.ok.inj hb).symm⟩
    · rintro ⟨-, rfl⟩
      rfl
  · exact ⟨fun hb => (nomatch hb), fun hb => absurd hb.1 h⟩

theorem unpackFrom_natCast (h : a + n ≤ d.length) : unpackFrom d (a : ℤ) n = .ok (window d a n) :=
  unpackFrom_eq_ok.mpr ⟨h, rfl⟩

theorem packAt_eq_ok {fields : List (ℕ × ℕ)} : packAt d a fields = .ok out ↔
    ∃ bs, pack fields = some bs ∧ a + bs.length ≤ d.length ∧ out = splice d a bs := by
  rw [packAt, ← packInto_eq_some]
  cases packInto d a fields with
  | none => exact ⟨fun h => (nomatch h), fun h => (nomatch h)⟩
  | some bs =>
    exact ⟨fun h => congrArg _ (Except.ok.inj h), fun h => congrArg _ (Option.some.inj h)⟩

/-- Writing `bs` at offset `a` of `d` gives `out`. -/
def Writes (d : Bytes) (a : ℕ) (bs out : Bytes) : Prop :=
  a + bs.length ≤ d.length ∧ out = splice d a bs

variable {bs : Bytes} {w : ℕ}

theorem Writes.length_eq (h : Writes d a bs out) : out.length = d.length := by
  rw [h.2, length_splice h.1]

theorem Writes.leAt_outside (h : Writes d a bs out) {i : ℕ} (hi : i + w ≤ a ∨ a + bs.length ≤ i) :
    leAt w out i = leAt w d i := by
  rw [h.2, leAt_splice_of_disjoint h.1 hi]

theorem Writes.window_outside (h : Writes d a bs out) {i : ℕ}
    (hi : i + n ≤ a ∨ a + bs.length ≤ i) : window out i n = window d i n := by
  rw [h.2, window_splice_of_disjoint h.1 hi]

theorem Writes.leAt_inside (h : Writes d a bs out) {i : ℕ} (hi : i + w ≤ bs.length) :
    leAt w out (a + i) = leAt w bs i := by
  rw [h.2, leAt_splice_inside h.1 hi]

end Primitives

/-! ### Reading a slot -/

/-- The descriptor in the twelve bytes at `a`. -/
def descAt (d : Bytes) (a : ℕ) : Descriptor := ⟨leAt 4 d a, leAt 4 d (a + 4), leAt 4 d (a + 8)⟩

theorem descriptor_natCast {d : Bytes} {base off : ℕ} (h : base + off + 12 ≤ d.length) :
    descriptor d base off = .ok (descAt d (base + off)) := by
  rw [descriptor, ← Nat.cast_add, unpackFrom_natCast h]
  change Except.ok _ = _
  rw [leAt_window (by omega), leAt_window (by omega), leAt_window (by omega)]
  rfl

/-- **Reading a header**, where there is room for one. -/
theorem parseMetadata_natCast {d : Bytes} {base : ℕ} (h : base + 128 ≤ d.length) :
    parseMetadata d base =
      .ok (if leAt 4 d base ≠ HEADER_MAGIC then none else some {
        base := base
        version := (leAt 2 d (base + 4), leAt 2 d (base + 6))
        hdrSize := leAt 4 d (base + 8)
        tablesSize := leAt 4 d (base + H_TABLES_SIZE)
        partitions := descAt d (base + H_PARTITIONS)
        extents := descAt d (base + H_EXTENTS)
        groups := descAt d (base + H_GROUPS)
        devices := descAt d (base + H_DEVICES) }) := by
  rw [parseMetadata, unpackFrom_natCast (by omega)]
  change (if leAt 4 (window d base 12) 0 ≠ HEADER_MAGIC then _ else _) = _
  rw [leAt_window (by omega), Nat.add_zero]
  split_ifs with hmagic
  · rfl
  · rw [← Nat.cast_add, unpackFrom_natCast (by rw [H_TABLES_SIZE]; omega),
      descriptor_natCast (by rw [H_PARTITIONS]; omega),
      descriptor_natCast (by rw [H_EXTENTS]; omega),
      descriptor_natCast (by rw [H_GROUPS]; omega), descriptor_natCast (by rw [H_DEVICES]; omega)]
    change Except.ok (some _) = _
    rw [leAt_window (by omega), leAt_window (by omega), leAt_window (by omega),
      leAt_window (by omega)]
    rfl

theorem eq_of_parseMetadata {d : Bytes} {base : ℕ} {m : Metadata} (h : base + 128 ≤ d.length)
    (hparse : parseMetadata d base = .ok (some m)) : leAt 4 d base = HEADER_MAGIC ∧
    m = ⟨base, (leAt 2 d (base + 4), leAt 2 d (base + 6)), leAt 4 d (base + 8),
      leAt 4 d (base + H_TABLES_SIZE), descAt d (base + H_PARTITIONS), descAt d (base + H_EXTENTS),
      descAt d (base + H_GROUPS), descAt d (base + H_DEVICES)⟩ := by
  rw [parseMetadata_natCast h] at hparse
  split_ifs at hparse with hmagic
  · exact absurd (Except.ok.inj hparse) (by simp)
  · exact ⟨not_not.mp hmagic, (Option.some.inj (Except.ok.inj hparse)).symm⟩

/-- **Well-formed metadata** in the slot of `slotSize` bytes at `base`: a header with the magic and
at least 128 bytes, tables inside the slot, entries of the known sizes, and every partition's range
of extents inside the extents table. -/
structure Slot (d : Bytes) (base slotSize : ℕ) (m : Metadata) : Prop where
  parsed : parseMetadata d base = .ok (some m)
  slot_inside : base + slotSize ≤ d.length
  hdrSize : 128 ≤ m.hdrSize
  tables_inside : ∀ t ∈ [m.partitions, m.extents, m.groups, m.devices],
    m.hdrSize + t.offset + t.numEntries * t.entrySize ≤ slotSize
  partitions_size : m.partitions.entrySize = 52
  extents_size : m.extents.entrySize = 24
  groups_size : m.groups.entrySize = 48
  devices_size : m.devices.entrySize = 64
  ranges_inside : ∀ p ∈ entries d m m.partitions, leAt 4 p 40 + leAt 4 p 44 ≤ m.extents.numEntries

section Slot

variable {d : Bytes} {base slotSize : ℕ} {m : Metadata}

theorem Slot.hdr_inside (h : Slot d base slotSize m) : base + m.hdrSize ≤ d.length := by
  have := h.tables_inside m.partitions (by simp)
  have := h.slot_inside
  omega

theorem Slot.eq_parsed (h : Slot d base slotSize m) : leAt 4 d base = HEADER_MAGIC ∧
    m = ⟨base, (leAt 2 d (base + 4), leAt 2 d (base + 6)), leAt 4 d (base + 8),
      leAt 4 d (base + H_TABLES_SIZE), descAt d (base + H_PARTITIONS), descAt d (base + H_EXTENTS),
      descAt d (base + H_GROUPS), descAt d (base + H_DEVICES)⟩ :=
  eq_of_parseMetadata (by have := h.hdr_inside; have := h.hdrSize; omega) h.parsed

theorem Slot.base_eq (h : Slot d base slotSize m) : m.base = base := by
  rw [h.eq_parsed.2]

/-- The entries of a table are records of the dump. -/
theorem entries_eq_records (hbase : m.base = base) (t : Descriptor) :
    entries d m t = records d (base + m.hdrSize + t.offset) t.entrySize t.numEntries := by
  refine List.map_congr_left ?_
  intro i _
  have hstart : m.start t = (base + m.hdrSize + t.offset : ℕ) := by
    rw [Metadata.start, hbase]
    push_cast
    rfl
  rw [hstart, ← Nat.cast_add, ← Nat.cast_add, pySlice_natCast]
  congr 1
  rw [Nat.succ_mul]
  omega

/-- A table as it stands is a window of the dump. -/
theorem tableBlob_eq_window (hbase : m.base = base) (t : Descriptor) : tableBlob d m t
    = window d (base + m.hdrSize + t.offset) (t.numEntries * t.entrySize) := by
  have hstart : m.start t = (base + m.hdrSize + t.offset : ℕ) := by
    rw [Metadata.start, hbase]
    push_cast
    rfl
  rw [tableBlob, hstart, ← Nat.cast_add, pySlice_natCast, Nat.add_sub_cancel_left]

/-- The header is a window of the dump. -/
theorem header_eq_window (hbase : m.base = base) :
    pySlice d m.base (m.base + m.hdrSize) = window d base m.hdrSize := by
  rw [hbase, ← Nat.cast_add, pySlice_natCast, Nat.add_sub_cancel_left]

/-- The entries of a table are records of the table as it stands. -/
theorem entries_eq_tableBlob (hbase : m.base = base) (t : Descriptor) :
    entries d m t = records (tableBlob d m t) 0 t.entrySize t.numEntries := by
  rw [entries_eq_records hbase, tableBlob_eq_window hbase, records_window (by omega), Nat.add_zero]

theorem Slot.entries_eq (h : Slot d base slotSize m) (t : Descriptor) :
    entries d m t = records d (base + m.hdrSize + t.offset) t.entrySize t.numEntries :=
  entries_eq_records h.base_eq t

theorem Slot.tableBlob_eq (h : Slot d base slotSize m) (t : Descriptor) :
    tableBlob d m t = window d (base + m.hdrSize + t.offset) (t.numEntries * t.entrySize) :=
  tableBlob_eq_window h.base_eq t

theorem Slot.table_end (h : Slot d base slotSize m) {t : Descriptor}
    (ht : t ∈ [m.partitions, m.extents, m.groups, m.devices]) :
    base + m.hdrSize + t.offset + t.numEntries * t.entrySize ≤ d.length := by
  have := h.tables_inside t ht
  have := h.slot_inside
  omega

theorem Slot.length_entry (h : Slot d base slotSize m) {t : Descriptor}
    (ht : t ∈ [m.partitions, m.extents, m.groups, m.devices]) {e : Bytes}
    (he : e ∈ entries d m t) : e.length = t.entrySize := by
  rw [h.entries_eq] at he
  exact length_of_mem_records (h.table_end ht) he

end Slot

/-! ### Partitions that own their extents -/

/-- A logical partition, decoded. -/
structure LogicalPartition where
  name : Text
  attributes : ℕ
  extents : List Extent
  group : ℕ
  deriving DecidableEq

/-- The size of a partition in sectors. -/
def LogicalPartition.sectors (p : LogicalPartition) : ℕ := (p.extents.map Extent.numSectors).sum

/-- An entry of the extents table, decoded. -/
def extentOf (e : Bytes) : Extent := ⟨leAt 8 e 0, leAt 4 e 8, leAt 8 e 12, leAt 4 e 20⟩

/-- An entry of the partition table, decoded, with the extents it owns. -/
def withExtents (p : Bytes) (lst : List Extent) : LogicalPartition :=
  ⟨partName p, leAt 4 p 36, lst, leAt 4 p 48⟩

/-- An entry of the partition table, decoded against the extents table. -/
def partitionOf (exts : List Extent) (p : Bytes) : LogicalPartition :=
  withExtents p (window exts (leAt 4 p 40) (leAt 4 p 44))

/-- The decoded partitions of a slot. -/
def logicalPartitions (d : Bytes) (m : Metadata) : List LogicalPartition :=
  (entries d m m.partitions).map (partitionOf ((entries d m m.extents).map extentOf))

/-- What a partition entry says, apart from where its extents stand: the bytes before and after the
index range, and the raw extents in the range. -/
structure PartContent where
  before : Bytes
  after : Bytes
  extents : List Bytes
  deriving DecidableEq

/-- The content of a partition entry, against the extents table. -/
def partContent (exts : List Bytes) (p : Bytes) : PartContent :=
  ⟨p.take 40, p.drop 48, window exts (leAt 4 p 40) (leAt 4 p 44)⟩

def PartContent.decode (c : PartContent) : LogicalPartition :=
  ⟨partName c.before, leAt 4 c.before 36, c.extents.map extentOf, leAt 4 c.after 0⟩

theorem partName_take (p : Bytes) : partName (p.take 40) = partName p := by
  rw [partName, partName, List.take_take]
  rfl

/-- An entry without its index range decodes alike. -/
theorem decode_mk (p : Bytes) (lst : List Bytes) :
    PartContent.decode ⟨p.take 40, p.drop 48, lst⟩ = withExtents p (lst.map extentOf) := by
  have hattr : leAt 4 (p.take 40) 36 = leAt 4 p 36 := by
    rw [show p.take 40 = window p 0 40 from rfl, leAt_window (by omega), Nat.zero_add]
  have hgroup : leAt 4 (p.drop 48) 0 = leAt 4 p 48 := by
    rw [leAt, leAt, window, window, List.drop_drop]
  rw [PartContent.decode, withExtents, partName_take, hattr, hgroup]

theorem decode_partContent (exts : List Bytes) (p : Bytes) :
    (partContent exts p).decode = partitionOf (exts.map extentOf) p := by
  rw [partContent, decode_mk, partitionOf, window_map]

/-! ### Re-indexing -/

section Reindex

variable {p p' : Bytes} {cursor n : ℕ}

/-- The entries differ in the index range only. -/
def SameEntry (p p' : Bytes) : Prop :=
  p'.length = p.length ∧ p'.take 40 = p.take 40 ∧ p'.drop 48 = p.drop 48

theorem forall_length_iff (P : ℕ → Prop) {parts parts' : List Bytes}
    (h : List.Forall₂ SameEntry parts parts') :
    (∀ p ∈ parts', P p.length) ↔ ∀ p ∈ parts, P p.length := by
  induction h with
  | nil => exact Iff.rfl
  | cons hsame _ ih => rw [List.forall_mem_cons, List.forall_mem_cons, ih, hsame.1]

/-- An entry that was given a new range keeps everything else. -/
theorem packAt_range (h : packAt p 40 [(4, cursor), (4, n)] = .ok p') :
    48 ≤ p.length ∧ SameEntry p p' ∧ leAt 4 p' 40 = cursor ∧ leAt 4 p' 44 = n := by
  obtain ⟨bs, hbs, hwrites⟩ := packAt_eq_ok.mp h
  simp only [pack_cons_eq_some, pack_nil_eq_some] at hbs
  obtain ⟨hcursor, _, ⟨hn, _, rfl, rfl⟩, rfl⟩ := hbs
  have hw : Writes p 40 _ p' := hwrites
  have hlen : (toLE 4 cursor ++ (toLE 4 n ++ [])).length = 8 := by simp
  have hroom : 48 ≤ p.length := by
    have := hw.1
    omega
  refine ⟨hroom, ⟨hw.length_eq, ?_, ?_⟩, ?_, ?_⟩
  · exact hw.window_outside (i := 0) (n := 40) (by omega)
  · have hdrop := hw.window_outside (i := 48) (n := p.length - 48) (by omega)
    rwa [window, window, List.take_of_length_le (by rw [List.length_drop, hw.length_eq]),
      List.take_of_length_le (by rw [List.length_drop])] at hdrop
  · rw [show leAt 4 p' 40 = leAt 4 p' (40 + 0) from rfl, hw.leAt_inside (by omega),
      leAt_toLE_append hcursor]
  · rw [show leAt 4 p' 44 = leAt 4 p' (40 + 4) from rfl, hw.leAt_inside (by omega),
      show leAt 4 (toLE 4 cursor ++ (toLE 4 n ++ [])) 4
        = leAt 4 (toLE 4 cursor ++ (toLE 4 n ++ [])) ((toLE 4 cursor).length + 0) by
          rw [length_toLE],
      leAt_append_right, leAt_toLE_append hn]

/-- The index range of an entry: the first extent and how many there are. -/
def rangeOf (p : Bytes) : ℕ × ℕ := (leAt 4 p 40, leAt 4 p 44)

/-- Ranges of the given sizes, one after another from `cursor` on. -/
def consecutive (cursor : ℕ) : List ℕ → List (ℕ × ℕ)
  | [] => []
  | n :: ns => (cursor, n) :: consecutive (cursor + n) ns

theorem consecutive_le {ns : List ℕ} {r : ℕ × ℕ} (h : r ∈ consecutive cursor ns) :
    r.1 + r.2 ≤ cursor + ns.sum := by
  induction ns generalizing cursor with
  | nil => simp [consecutive] at h
  | cons n ns ih =>
    rw [List.sum_cons]
    rcases List.mem_cons.mp h with rfl | h
    · omega
    · have := ih h
      omega

theorem map_snd_consecutive (cursor : ℕ) (ns : List ℕ) :
    (consecutive cursor ns).map Prod.snd = ns := by
  induction ns generalizing cursor with
  | nil => rfl
  | cons n ns ih => rw [consecutive, List.map_cons, ih]

/-- What stands in consecutive ranges. -/
theorem flatten_consecutive {α : Type*} (l : List α) (cursor : ℕ) (ns : List ℕ) :
    ((consecutive cursor ns).map fun r => window l r.1 r.2).flatten
      = window l cursor ns.sum := by
  induction ns generalizing cursor with
  | nil => rw [List.sum_nil, window, List.take_zero]; rfl
  | cons n ns ih =>
    rw [consecutive, List.map_cons, List.flatten_cons, ih, window_append_window, List.sum_cons]

/-- **The regenerated indices.** The ranges are consecutive, and each entry owns its own extents in
the table that holds everybody's one after another. `pre` are the extents of the entries already
done. -/
theorem reindex_spec {parts' : List Bytes} : ∀ {parts : List Bytes} {plan : List (List Bytes)}
    (pre : List Bytes), parts.length = plan.length →
    reindex pre.length (parts.zip plan) = .ok parts' →
    List.Forall₂ SameEntry parts parts' ∧ (∀ p ∈ parts, 48 ≤ p.length) ∧
      parts'.map rangeOf = consecutive pre.length (plan.map List.length) ∧
      parts'.map (partContent (pre ++ plan.flatten))
        = List.zipWith (fun p lst => ⟨p.take 40, p.drop 48, lst⟩) parts plan
  | [], [], _, _, h => by
    rw [List.zip_nil_left, reindex, pure_eq_ok] at h
    subst h
    exact ⟨.nil, by simp, rfl, rfl⟩
  | p :: parts, lst :: plan, pre, hlen, h => by
    rw [List.zip_cons_cons, reindex] at h
    obtain ⟨p', hp', h⟩ := bind_eq_ok.mp h
    obtain ⟨rest, hrest, h⟩ := bind_eq_ok.mp h
    obtain rfl := pure_eq_ok.mp h
    rw [← List.length_append] at hrest
    obtain ⟨hsame, hlong, hranges, hmap⟩ := reindex_spec (pre ++ lst) (Nat.succ.inj hlen) hrest
    obtain ⟨hroom, hsame', hfirst, hnum⟩ := packAt_range hp'
    have hall : pre ++ (lst :: plan).flatten = pre ++ lst ++ plan.flatten := by
      rw [List.flatten_cons, List.append_assoc]
    have hown : window (pre ++ lst ++ plan.flatten) pre.length lst.length = lst := by
      rw [List.append_assoc, ← Nat.add_zero pre.length, window_append_right,
        window_append_left (by omega), window_zero_length]
    refine ⟨.cons hsame' hsame, List.forall_mem_cons.mpr ⟨hroom, hlong⟩, ?_, ?_⟩
    · rw [List.map_cons, hranges, rangeOf, hfirst, hnum, List.map_cons, consecutive,
        List.length_append]
    · rw [hall, List.map_cons, hmap, List.zipWith_cons_cons, partContent, hsame'.2.1, hsame'.2.2,
        hfirst, hnum, hown]

end Reindex

/-! ### The rebuilt slot -/

/-- The twelve bytes of a table descriptor. -/
def descBytes (t : Descriptor) : Bytes :=
  [t.offset, t.numEntries, t.entrySize].flatMap (toLE 4)

/-- The numbers of a descriptor fit their fields. -/
def FitsHeader (t : Descriptor) : Prop :=
  t.offset < 256 ^ 4 ∧ t.numEntries < 256 ^ 4 ∧ t.entrySize < 256 ^ 4

/-- Tables of `num` entries of `sz` bytes each, back to back from `off`. -/
def layout (off : ℕ) : List (ℕ × ℕ) → List Descriptor
  | [] => []
  | (num, sz) :: rest => ⟨off, num, sz⟩ :: layout (off + num * sz) rest

/-- A header that describes and seals `tables`; everything else is that of `hdr`. -/
def sealHeader (sha : Sha256) (hdr tables : Bytes) (ts : List Descriptor) : Bytes :=
  let fields := toLE 4 tables.length ++ sha.digest tables ++ ts.flatMap descBytes
  let zeroed := splice hdr 12 (List.replicate 32 0 ++ fields)
  splice hdr 12 (sha.digest zeroed ++ fields)

theorem length_descBytes (t : Descriptor) : (descBytes t).length = 12 := by
  simp [descBytes]

theorem length_flatMap_descBytes (ts : List Descriptor) :
    (ts.flatMap descBytes).length = 12 * ts.length := by
  induction ts with
  | nil => rfl
  | cons t ts ih =>
    rw [List.flatMap_cons, List.length_append, length_descBytes, ih, List.length_cons]
    omega

/-- Writing a table descriptor. -/
theorem packAt_descriptor {hdr out : Bytes} {field off num sz : ℕ}
    (h : packAt hdr field [(4, off), (4, num), (4, sz)] = .ok out) :
    FitsHeader ⟨off, num, sz⟩ ∧ field + 12 ≤ hdr.length ∧
      out = splice hdr field (descBytes ⟨off, num, sz⟩) := by
  obtain ⟨bs, hbs, hroom, rfl⟩ := packAt_eq_ok.mp h
  simp only [pack_cons_eq_some, pack_nil_eq_some] at hbs
  obtain ⟨hoff, _, ⟨hnum, _, ⟨hsz, _, rfl, rfl⟩, rfl⟩, rfl⟩ := hbs
  have hlen : (toLE 4 off ++ (toLE 4 num ++ (toLE 4 sz ++ []))).length = 12 := by simp
  exact ⟨⟨hoff, hnum, hsz⟩, by omega, rfl⟩

/-- The fields of descriptors that stand side by side from `a` on. -/
def descFields (a : ℕ) : List (ℕ × ℕ) → List (ℕ × ℕ × ℕ)
  | [] => []
  | (num, sz) :: rest => (a, num, sz) :: descFields (a + 12) rest

theorem length_layout (off : ℕ) (es : List (ℕ × ℕ)) : (layout off es).length = es.length := by
  induction es generalizing off with
  | nil => rfl
  | cons e es ih => rw [layout, List.length_cons, ih, List.length_cons]

/-- The descriptors, written one after another. -/
theorem layTables_eq_ok : ∀ {es : List (ℕ × ℕ)} {off a : ℕ} {hdr out : Bytes},
    layTables off (descFields a es) hdr = .ok out →
      (es = [] ∨ a + 12 * es.length ≤ hdr.length) ∧
      (∀ t ∈ layout off es, FitsHeader t) ∧
      out = splice hdr a ((layout off es).flatMap descBytes)
  | [], off, a, hdr, out, h => by
    obtain rfl := pure_eq_ok.mp h
    refine ⟨Or.inl rfl, by simp [layout], ?_⟩
    simp [layout, splice]
  | (num, sz) :: es, off, a, hdr, out, h => by
    rw [descFields, layTables] at h
    obtain ⟨hdr', hdr₁, h⟩ := bind_eq_ok.mp h
    obtain ⟨hfits, hroom, rfl⟩ := packAt_descriptor hdr₁
    have hlen := length_descBytes ⟨off, num, sz⟩
    obtain ⟨hlast, hrest, rfl⟩ := layTables_eq_ok h
    have hes : (layout (off + num * sz) es).length = es.length := length_layout _ _
    rw [length_splice (by omega)] at hlast
    have hall : a + 12 + 12 * es.length ≤ hdr.length := by
      rcases hlast with rfl | hlast
      · exact hroom
      · exact hlast
    refine ⟨Or.inr ?_, List.forall_mem_cons.mpr ⟨hfits, hrest⟩, ?_⟩
    · rw [List.length_cons]
      omega
    · rw [← hlen, splice_splice_right, layout, List.flatMap_cons]
      rw [length_flatMap_descBytes, hlen, hes]
      exact hall

/-- Sealing a header: the fields stand side by side, tables size at 44, its checksum at 48 and the
descriptors at 80; the header's own checksum at 12 is taken with zeros in its place. -/
theorem checksums_eq_sealHeader (sha : Sha256) {hdr tables : Bytes} {ts : List Descriptor}
    (h128 : 128 ≤ hdr.length) (hts : ts.length = 4) :
    checksums sha tables (splice (splice hdr 80 (ts.flatMap descBytes)) H_TABLES_SIZE
      (toLE 4 tables.length)) = sealHeader sha hdr tables ts := by
  have hsha := sha.length_digest
  have hD : (ts.flatMap descBytes).length = 48 := by
    rw [length_flatMap_descBytes, hts]
  rw [checksums, sealHeader, H_TABLES_SIZE, H_TABLES_CSUM, H_HEADER_CSUM]
  generalize hF : toLE 4 tables.length ++ sha.digest tables ++ ts.flatMap descBytes = fields
  have hfields : splice (splice (splice hdr 80 (ts.flatMap descBytes)) 44
      (toLE 4 tables.length)) 48 (sha.digest tables) = splice hdr 44 fields := by
    have hright := splice_splice_right (splice hdr 80 (ts.flatMap descBytes))
      (toLE 4 tables.length) (sha.digest tables) (a := 44)
    have hleft := splice_splice_left hdr (toLE 4 tables.length ++ sha.digest tables)
      (ts.flatMap descBytes) (a := 44)
    rw [length_splice (by omega)] at hright
    rw [List.length_append] at hleft
    rw [length_toLE, hsha] at hright hleft
    rw [hright (by omega), hleft (by omega), hF]
  have hFlen : fields.length = 84 := by
    rw [← hF, List.length_append, List.length_append, length_toLE, hsha, hD]
  have hover : ∀ x : Bytes, x.length = 32 →
      splice (splice hdr 44 fields) 12 x = splice hdr 12 (x ++ fields) := by
    intro x hx
    have hleft := splice_splice_left hdr x fields (a := 12)
    rw [hx] at hleft
    exact hleft (by omega)
  have hzeros := hover (List.replicate 32 0) List.length_replicate
  rw [hfields, splice_splice_self (by rw [List.length_replicate, hsha])
    (by rw [hsha, length_splice (by omega)]; omega), hover _ (hsha _), hzeros]

theorem descAt_append_right (d e : Bytes) (a : ℕ) :
    descAt (d ++ e) (d.length + a) = descAt e a := by
  rw [descAt, descAt, leAt_append_right, Nat.add_assoc, leAt_append_right, Nat.add_assoc,
    leAt_append_right]

theorem descAt_window {d : Bytes} {a n b : ℕ} (h : b + 12 ≤ n) :
    descAt (window d a n) b = descAt d (a + b) := by
  rw [descAt, descAt, leAt_window (by omega), leAt_window (by omega), leAt_window (by omega),
    Nat.add_assoc, Nat.add_assoc]

/-- Reading one of a row of descriptors. -/
theorem descAt_flatMap : ∀ {ts : List Descriptor} {i : ℕ} {t : Descriptor}, ts[i]? = some t →
    FitsHeader t → descAt (ts.flatMap descBytes) (12 * i) = t
  | t :: ts, 0, t', h, ht => by
    obtain rfl := Option.some.inj h
    have hrow : descBytes t ++ ts.flatMap descBytes
        = toLE 4 t.offset ++ (toLE 4 t.numEntries ++ (toLE 4 t.entrySize ++
          ts.flatMap descBytes)) := by
      simp [descBytes]
    have hnum := leAt_append_right 4 (toLE 4 t.offset)
      (toLE 4 t.numEntries ++ (toLE 4 t.entrySize ++ ts.flatMap descBytes)) 0
    have hsz := leAt_append_right 4 (toLE 4 t.offset ++ toLE 4 t.numEntries)
      (toLE 4 t.entrySize ++ ts.flatMap descBytes) 0
    rw [length_toLE, leAt_toLE_append ht.2.1] at hnum
    rw [List.length_append, length_toLE, length_toLE, List.append_assoc,
      leAt_toLE_append ht.2.2] at hsz
    rw [List.flatMap_cons, hrow, descAt, Nat.mul_zero, leAt_toLE_append ht.1]
    exact congrArg₂ (Descriptor.mk t.offset) hnum hsz
  | t :: ts, i + 1, t', h, ht => by
    have hskip := descAt_append_right (descBytes t) (ts.flatMap descBytes) (12 * i)
    rw [length_descBytes] at hskip
    rw [List.flatMap_cons, Nat.mul_succ, Nat.add_comm, hskip,
      descAt_flatMap (show ts[i]? = some t' from h) ht]

section Seal

variable {hdr : Bytes} {ts : List Descriptor}

/-- **Reading a sealed header.** -/
theorem sealHeader_spec (sha : Sha256) (tables : Bytes) (h128 : 128 ≤ hdr.length)
    (hts : ts.length = 4) :
    (sealHeader sha hdr tables ts).length = hdr.length ∧
      (∀ i n, i + n ≤ 12 ∨ 128 ≤ i →
        window (sealHeader sha hdr tables ts) i n = window hdr i n) ∧
      window (sealHeader sha hdr tables ts) 12 32
        = sha.digest (splice (sealHeader sha hdr tables ts) 12 (List.replicate 32 0)) ∧
      window (sealHeader sha hdr tables ts) 44 4 = toLE 4 tables.length ∧
      window (sealHeader sha hdr tables ts) 48 32 = sha.digest tables ∧
      ∀ (i : ℕ) (t : Descriptor), ts[i]? = some t → FitsHeader t →
        descAt (sealHeader sha hdr tables ts) (80 + 12 * i) = t := by
  have hsha := sha.length_digest
  have hD : (ts.flatMap descBytes).length = 48 := by
    rw [length_flatMap_descBytes, hts]
  have htake : (hdr.take 12).length = 12 := by
    rw [List.length_take]
    omega
  rw [sealHeader]
  generalize hF : toLE 4 tables.length ++ sha.digest tables ++ ts.flatMap descBytes = fields
  have hFlen : fields.length = 84 := by
    rw [← hF, List.length_append, List.length_append, length_toLE, hsha, hD]
  generalize hsum : sha.digest (splice hdr 12 (List.replicate 32 0 ++ fields)) = csum
  have hsumlen : csum.length = 32 := hsum ▸ hsha _
  have hw : Writes hdr 12 (csum ++ fields) (splice hdr 12 (csum ++ fields)) :=
    ⟨by rw [List.length_append]; omega, rfl⟩
  have hlen : (csum ++ fields).length = 116 := by rw [List.length_append, hsumlen, hFlen]
  have hover : ∀ x : Bytes, x.length = 32 →
      splice (splice hdr 44 fields) 12 x = splice hdr 12 (x ++ fields) := by
    intro x hx
    have hleft := splice_splice_left hdr x fields (a := 12)
    rw [hx] at hleft
    exact hleft (by omega)
  -- the header, part by part
  have hparts : splice hdr 12 (csum ++ fields) = hdr.take 12 ++ (csum ++ (toLE 4 tables.length ++
      (sha.digest tables ++ (ts.flatMap descBytes ++ hdr.drop 128)))) := by
    rw [splice, hlen, ← hF]
    simp only [List.append_assoc]
  refine ⟨hw.length_eq, fun i n hi => hw.window_outside (by omega), ?_, ?_, ?_, ?_⟩
  · have hread := window_of_parts hparts htake
    rw [hsumlen] at hread
    rw [hread, ← hover _ hsumlen, splice_splice_self (by rw [hsumlen, List.length_replicate])
      (by rw [List.length_replicate, length_splice (by omega)]; omega),
      hover _ List.length_replicate, hsum]
  · have hpre : splice hdr 12 (csum ++ fields) = (hdr.take 12 ++ csum) ++
        (toLE 4 tables.length ++
          (sha.digest tables ++ (ts.flatMap descBytes ++ hdr.drop 128))) := by
      rw [hparts, List.append_assoc]
    have hread := window_of_parts (a := 44) hpre (by rw [List.length_append, htake, hsumlen])
    rwa [length_toLE] at hread
  · have hpre : splice hdr 12 (csum ++ fields) = (hdr.take 12 ++ csum ++ toLE 4 tables.length) ++
        (sha.digest tables ++ (ts.flatMap descBytes ++ hdr.drop 128)) := by
      rw [hparts, List.append_assoc, List.append_assoc]
    have hread := window_of_parts (a := 48) hpre (by simp [htake, hsumlen])
    rwa [hsha] at hread
  · intro i t hi ht
    have hpre : splice hdr 12 (csum ++ fields) =
        (hdr.take 12 ++ csum ++ toLE 4 tables.length ++ sha.digest tables) ++
          (ts.flatMap descBytes ++ hdr.drop 128) := by
      rw [hparts, List.append_assoc, List.append_assoc, List.append_assoc]
    have hread := window_of_parts (a := 80) hpre (by simp [htake, hsumlen, hsha])
    rw [hD] at hread
    have hi4 : i < 4 := hts ▸ (List.getElem?_eq_some_iff.mp hi).1
    rw [← descAt_window (by omega : 12 * i + 12 ≤ 48), hread, descAt_flatMap hi ht]

end Seal

/-- **What a blob is**: a sealed header, and the four tables one after another. -/
theorem rebuild_eq_ok {sha : Sha256} {d blob : Bytes} {base : ℕ} {m : Metadata}
    {parts : List Bytes} {plan : List (List Bytes)} (hbase : m.base = base)
    (hb : rebuild sha d m parts plan = .ok blob) :
    ∃ parts' tables ts, reindex 0 (parts.zip plan) = .ok parts' ∧
      tables = parts'.flatten ++ plan.flatten.flatten ++ tableBlob d m m.groups ++
        tableBlob d m m.devices ∧
      ts = layout 0 [(parts'.length, m.partitions.entrySize),
        (plan.flatten.length, m.extents.entrySize), (m.groups.numEntries, m.groups.entrySize),
        (m.devices.numEntries, m.devices.entrySize)] ∧
      128 ≤ (window d base m.hdrSize).length ∧ tables.length < 256 ^ 4 ∧
      (∀ t ∈ ts, FitsHeader t) ∧
      blob = sealHeader sha (window d base m.hdrSize) tables ts ++ tables := by
  rw [rebuild] at hb
  obtain ⟨parts', hparts', hb⟩ := bind_eq_ok.mp hb
  obtain ⟨hdr₁, hlay, hb⟩ := bind_eq_ok.mp hb
  obtain ⟨hdr₂, hsize, hb⟩ := bind_eq_ok.mp hb
  obtain rfl := pure_eq_ok.mp hb
  rw [header_eq_window hbase] at hlay
  change layTables 0 (descFields 80 [(parts'.length, m.partitions.entrySize),
    (plan.flatten.length, m.extents.entrySize), (m.groups.numEntries, m.groups.entrySize),
    (m.devices.numEntries, m.devices.entrySize)]) _ = .ok hdr₁ at hlay
  obtain ⟨hroom, hfits, rfl⟩ := layTables_eq_ok hlay
  have h128 := hroom.resolve_left (List.cons_ne_nil _ _)
  obtain ⟨bs, hbs, -, rfl⟩ := packAt_eq_ok.mp hsize
  simp only [pack_cons_eq_some, pack_nil_eq_some] at hbs
  obtain ⟨htlen, _, rfl, rfl⟩ := hbs
  refine ⟨parts', _, _, hparts', rfl, rfl, h128, htlen, hfits, congrArg (· ++ _) ?_⟩
  rw [List.append_nil]
  exact checksums_eq_sealHeader sha h128 (length_layout _ _)

section Rebuild

variable {sha : Sha256} {d blob : Bytes} {base slotSize : ℕ} {m : Metadata} {parts : List Bytes}
  {plan : List (List Bytes)}

/-- What the header of a blob says, with `n` partitions, `k` extents and `size` bytes of tables. -/
def rebuiltMetadata (m : Metadata) (n k size : ℕ) : Metadata where
  base := (0 : ℕ)
  version := m.version
  hdrSize := m.hdrSize
  tablesSize := size
  partitions := ⟨0, n, m.partitions.entrySize⟩
  extents := ⟨n * m.partitions.entrySize, k, m.extents.entrySize⟩
  groups := ⟨n * m.partitions.entrySize + k * m.extents.entrySize, m.groups.numEntries,
    m.groups.entrySize⟩
  devices := ⟨n * m.partitions.entrySize + k * m.extents.entrySize +
    m.groups.numEntries * m.groups.entrySize, m.devices.numEntries, m.devices.entrySize⟩

/-- A blob, taken apart: the header `hdr` and the `tables`, with the entries `parts'`. -/
structure Rebuilt (sha : Sha256) (d : Bytes) (base : ℕ) (m : Metadata) (parts : List Bytes)
    (plan : List (List Bytes)) (blob : Bytes) (parts' : List Bytes) (hdr tables : Bytes) :
    Prop where
  reindexed : reindex 0 (parts.zip plan) = .ok parts'
  tables_eq : tables = parts'.flatten ++ plan.flatten.flatten ++ tableBlob d m m.groups ++
    tableBlob d m m.devices
  hdrSize : 128 ≤ m.hdrSize
  length_hdr : hdr.length = m.hdrSize
  blob_eq : blob = hdr ++ tables
  /-- The header bytes outside the checksums, the tables size and the descriptors. -/
  kept : ∀ i n, i + n ≤ 12 ∨ 128 ≤ i → window hdr i n = window (window d base m.hdrSize) i n
  header_checksum : window hdr 12 32 = sha.digest (splice hdr 12 (List.replicate 32 0))
  tables_checksum : window hdr 48 32 = sha.digest tables
  parsed : ∀ post, parseMetadata (blob ++ post) (0 : ℕ)
    = .ok (some (rebuiltMetadata m parts'.length plan.flatten.length tables.length))

/-- **What a blob is**, for a header that lies inside the dump. -/
theorem rebuilt_of_eq_ok (hparse : parseMetadata d base = .ok (some m))
    (hinside : base + m.hdrSize ≤ d.length) (hbase : m.base = base)
    (hb : rebuild sha d m parts plan = .ok blob) :
    ∃ parts' hdr tables, Rebuilt sha d base m parts plan blob parts' hdr tables := by
  obtain ⟨parts', tables, ts, hparts', htables, hts, h128, htlen, hfits, hblob⟩ :=
    rebuild_eq_ok hbase hb
  have hhdr : (window d base m.hdrSize).length = m.hdrSize := length_window_of_le hinside
  have hts4 : ts.length = 4 := by rw [hts, length_layout]; rfl
  obtain ⟨hlen, hkeep, hcsum, hsize, htcsum, hdesc⟩ :=
    sealHeader_spec sha tables h128 hts4
  rw [hhdr] at hlen h128
  obtain ⟨hmagic, hm⟩ := eq_of_parseMetadata (by omega) hparse
  refine ⟨parts', _, tables, hparts', htables, h128, hlen, hblob, hkeep, hcsum, htcsum, ?_⟩
  intro post
  generalize sealHeader sha (window d base m.hdrSize) tables ts = hdr at *
  have hread : ∀ w i, i + w ≤ 12 → leAt w (blob ++ post) i = leAt w d (base + i) := by
    intro w i hi
    rw [hblob, List.append_assoc, leAt_append_left (by omega), leAt, hkeep i w (by omega), ← leAt,
      leAt_window (by omega)]
  have hdesc' : ∀ (i : ℕ) (t : Descriptor), i < 4 → ts[i]? = some t →
      descAt (blob ++ post) (80 + 12 * i) = t := by
    intro i t hi ht
    rw [← hdesc i t ht (hfits t (List.mem_of_getElem? ht)), hblob, List.append_assoc,
      ← Nat.add_zero (80 + 12 * i), descAt, descAt, leAt_append_left (by omega),
      leAt_append_left (by omega), leAt_append_left (by omega)]
  have hsize' : leAt 4 (blob ++ post) 44 = tables.length := by
    rw [hblob, List.append_assoc, leAt_append_left (by omega), leAt, hsize, ofLE_toLE htlen]
  have hmagic' : ¬ leAt 4 (blob ++ post) 0 ≠ HEADER_MAGIC := by
    rw [not_not, hread 4 0 (by omega), Nat.add_zero, hmagic]
  rw [parseMetadata_natCast (by rw [hblob, List.length_append, List.length_append]; omega)]
  simp only [Nat.zero_add]
  rw [if_neg hmagic', hread 2 4 (by omega), hread 2 6 (by omega), hread 4 8 (by omega),
    show leAt 4 (blob ++ post) H_TABLES_SIZE = tables.length from hsize',
    show descAt (blob ++ post) H_PARTITIONS = _ from hdesc' 0 _ (by decide) (by rw [hts]; rfl),
    show descAt (blob ++ post) H_EXTENTS = _ from hdesc' 1 _ (by decide) (by rw [hts]; rfl),
    show descAt (blob ++ post) H_GROUPS = _ from hdesc' 2 _ (by decide) (by rw [hts]; rfl),
    show descAt (blob ++ post) H_DEVICES = _ from hdesc' 3 _ (by decide) (by rw [hts]; rfl),
    rebuiltMetadata, show m.version = (leAt 2 d (base + 4), leAt 2 d (base + 6)) by rw [hm],
    show m.hdrSize = leAt 4 d (base + 8) by rw [hm]]
  simp only [Nat.zero_add]

/-- **The tables of a blob** are read back, whatever stands behind it, when no entry is cut
short. -/
theorem Rebuilt.read {parts' : List Bytes} {hdr tables : Bytes}
    (h : Rebuilt sha d base m parts plan blob parts' hdr tables)
    (hparts : ∀ p ∈ parts', p.length = m.partitions.entrySize)
    (hplan : ∀ e ∈ plan.flatten, e.length = m.extents.entrySize)
    (hgroups : (tableBlob d m m.groups).length = m.groups.numEntries * m.groups.entrySize)
    (hdevices : (tableBlob d m m.devices).length = m.devices.numEntries * m.devices.entrySize)
    (post : Bytes) {m' : Metadata}
    (hm' : m' = rebuiltMetadata m parts'.length plan.flatten.length tables.length) :
    entries (blob ++ post) m' m'.partitions = parts' ∧
      entries (blob ++ post) m' m'.extents = plan.flatten ∧
      tableBlob (blob ++ post) m' m'.groups = tableBlob d m m.groups ∧
      tableBlob (blob ++ post) m' m'.devices = tableBlob d m m.devices := by
  subst hm'
  have hP := length_flatten_of_forall hparts
  have hE := length_flatten_of_forall hplan
  have hhdr := h.length_hdr
  have hblob : blob ++ post = hdr ++ (parts'.flatten ++ (plan.flatten.flatten ++
      (tableBlob d m m.groups ++ (tableBlob d m m.devices ++ post)))) := by
    rw [h.blob_eq, h.tables_eq]
    simp only [List.append_assoc]
  refine ⟨?_, ?_, ?_, ?_⟩
  · have hsplit : blob ++ post = hdr ++ parts'.flatten ++ (plan.flatten.flatten ++
        (tableBlob d m m.groups ++ (tableBlob d m m.devices ++ post))) := by
      rw [hblob, List.append_assoc]
    have hread := records_flatten hdr (plan.flatten.flatten ++
      (tableBlob d m m.groups ++ (tableBlob d m m.devices ++ post))) hparts
    rw [← hsplit, hhdr] at hread
    rw [entries_eq_records rfl, Nat.zero_add]
    exact hread
  · have hsplit : blob ++ post = hdr ++ parts'.flatten ++ plan.flatten.flatten ++
        (tableBlob d m m.groups ++ (tableBlob d m m.devices ++ post)) := by
      rw [hblob]
      simp only [List.append_assoc]
    have hread := records_flatten (hdr ++ parts'.flatten)
      (tableBlob d m m.groups ++ (tableBlob d m m.devices ++ post)) hplan
    rw [← hsplit, List.length_append, hhdr, hP] at hread
    rw [entries_eq_records rfl, Nat.zero_add]
    exact hread
  · have hsplit : blob ++ post = (hdr ++ parts'.flatten ++ plan.flatten.flatten) ++
        (tableBlob d m m.groups ++ (tableBlob d m m.devices ++ post)) := by
      rw [hblob]
      simp only [List.append_assoc]
    have hread := window_of_parts (a := m.hdrSize + (parts'.length * m.partitions.entrySize +
      plan.flatten.length * m.extents.entrySize)) hsplit (by
        rw [List.length_append, List.length_append, hhdr, hP, hE, Nat.add_assoc])
    rw [hgroups] at hread
    rw [tableBlob_eq_window rfl, Nat.zero_add]
    exact hread
  · have hsplit : blob ++ post = (hdr ++ parts'.flatten ++ plan.flatten.flatten ++
        tableBlob d m m.groups) ++ (tableBlob d m m.devices ++ post) := by
      rw [hblob]
      simp only [List.append_assoc]
    have hread := window_of_parts (a := m.hdrSize + (parts'.length * m.partitions.entrySize +
      plan.flatten.length * m.extents.entrySize + m.groups.numEntries * m.groups.entrySize)) hsplit
        (by
          rw [List.length_append, List.length_append, List.length_append, hhdr, hP, hE, hgroups]
          omega)
    rw [hdevices] at hread
    rw [tableBlob_eq_window rfl, Nat.zero_add]
    exact hread

/-- **The checksums of a blob** are right, whatever stands behind it. -/
theorem Rebuilt.checksums_eq {parts' : List Bytes} {hdr tables : Bytes}
    (h : Rebuilt sha d base m parts plan blob parts' hdr tables) (post : Bytes) :
    window (blob ++ post) H_HEADER_CSUM 32 = sha.digest
        (splice (window (blob ++ post) 0 m.hdrSize) H_HEADER_CSUM (List.replicate 32 0)) ∧
      window (blob ++ post) H_TABLES_CSUM 32
        = sha.digest (window (blob ++ post) m.hdrSize tables.length) := by
  have hsplit : blob ++ post = hdr ++ (tables ++ post) := by
    rw [h.blob_eq, List.append_assoc]
  have hhdr : window (blob ++ post) 0 m.hdrSize = hdr := by
    rw [hsplit, window_append_left (by rw [h.length_hdr, Nat.zero_add]), ← h.length_hdr,
      window_zero_length]
  have hfield : ∀ a, a + 32 ≤ 128 → window (blob ++ post) a 32 = window hdr a 32 := by
    intro a ha
    rw [hsplit, window_append_left]
    have := h.hdrSize
    have := h.length_hdr
    omega
  constructor
  · rw [hhdr, H_HEADER_CSUM, hfield 12 (by omega), h.header_checksum]
  · rw [H_TABLES_CSUM, hfield 48 (by omega), h.tables_checksum, window_of_parts hsplit h.length_hdr]

/-- **The rebuilt slot decodes** to the partitions it was built from, each with its own extents, and
to the groups and block devices of the old slot. -/
theorem rebuild_decodes (h : Slot d base slotSize m) (hparts : ∀ p ∈ parts, p.length = 52)
    (hplan : ∀ e ∈ plan.flatten, e.length = 24) (hlen : parts.length = plan.length)
    (hb : rebuild sha d m parts plan = .ok blob) :
    ∃ m', Slot blob 0 blob.length m' ∧
      entries blob m' m'.groups = entries d m m.groups ∧
      entries blob m' m'.devices = entries d m m.devices ∧
      logicalPartitions blob m'
        = List.zipWith (fun p lst => withExtents p (lst.map extentOf)) parts plan := by
  obtain ⟨parts', hdr, tables, hbuilt⟩ := rebuilt_of_eq_ok h.parsed h.hdr_inside h.base_eq hb
  obtain ⟨hsame, -, hranges, hcontent⟩ := reindex_spec [] hlen hbuilt.reindexed
  rw [List.nil_append] at hcontent
  have hsizes := (forall_length_iff (· = 52) hsame).mpr hparts
  have hG : (tableBlob d m m.groups).length = m.groups.numEntries * m.groups.entrySize := by
    rw [h.tableBlob_eq, length_window_of_le (h.table_end (by simp))]
  have hD : (tableBlob d m m.devices).length = m.devices.numEntries * m.devices.entrySize := by
    rw [h.tableBlob_eq, length_window_of_le (h.table_end (by simp))]
  rw [← h.partitions_size] at hsizes
  rw [← h.extents_size] at hplan
  obtain ⟨hreadP, hreadE, hreadG, hreadD⟩ := hbuilt.read hsizes hplan hG hD [] rfl
  have hparsed := hbuilt.parsed []
  have hP := length_flatten_of_forall hsizes
  have hE := length_flatten_of_forall hplan
  have htables := congrArg List.length hbuilt.tables_eq
  have hblob := congrArg List.length hbuilt.blob_eq
  simp only [List.length_append, hP, hE, hG, hD, hbuilt.length_hdr] at htables hblob
  rw [List.append_nil] at hparsed hreadP hreadE hreadG hreadD
  refine ⟨_, ⟨hparsed, by omega, hbuilt.hdrSize, ?_, h.partitions_size, h.extents_size,
    h.groups_size, h.devices_size, ?_⟩, ?_, ?_, ?_⟩
  · simp only [List.forall_mem_cons, rebuiltMetadata]
    refine ⟨?_, ?_, ?_, ?_, fun _ hx => absurd hx List.not_mem_nil⟩ <;> omega
  · rw [hreadP]
    intro p hp
    have hle := consecutive_le (hranges ▸ List.mem_map_of_mem (f := rangeOf) hp)
    rwa [← List.length_flatten, List.length_nil, Nat.zero_add] at hle
  · rw [entries_eq_tableBlob rfl, hreadG, entries_eq_tableBlob h.base_eq]
    rfl
  · rw [entries_eq_tableBlob rfl, hreadD, entries_eq_tableBlob h.base_eq]
    rfl
  · have hdecode := congrArg (List.map PartContent.decode) hcontent
    rw [List.map_map, List.map_zipWith] at hdecode
    rw [logicalPartitions, hreadP, hreadE]
    simpa only [Function.comp_def, decode_partContent, decode_mk] using hdecode

end Rebuild

end LpResize

end PalmaEos
