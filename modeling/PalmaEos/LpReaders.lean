import PalmaEos.LpDump
import PalmaEos.LpResizeCopies

/-!
# Three readers of one slot

`lp-resize-partition.py`, `lpunpack.py` and `lpdump-from-super.py` each have their own reader of LP
metadata. On well-formed metadata they decode the same partitions with the same extents, and the
metadata that growing a partition leaves are such.

## Main results

* `Slot.unpack_reads`, `Slot.dump_reads` — the other two readers against `logicalPartitions`
* `patchSlot_faithful` — what the rebuilt metadata are, and that all three readers agree on them
-/

namespace PalmaEos

namespace LpResize

open LpUnpack (Descriptor Extent)

/-! ### `lpunpack.py` -/

section Unpack

variable {image : Bytes} {base slotSize : ℕ} {m : Metadata} {g : LpUnpack.Geometry} {slot : ℤ}

theorem unpack_unpackFrom_eq_ok {d b : Bytes} {a n : ℕ} :
    LpUnpack.unpackFrom d a n = .ok b ↔ a + n ≤ d.length ∧ b = window d a n := by
  rw [LpUnpack.unpackFrom, bufferAt_natCast]
  split_ifs with h
  · constructor
    · intro hb
      exact ⟨h, (Except.ok.inj hb).symm⟩
    · rintro ⟨-, rfl⟩
      rfl
  · exact ⟨fun hb => (nomatch hb), fun hb => absurd hb.1 h⟩

/-- Reading inside the window of a slot. -/
theorem unpackFrom_slot {a n : ℕ} (ha : a + n ≤ slotSize) (hin : base + a + n ≤ image.length) :
    LpUnpack.unpackFrom (window image base slotSize) a n = .ok (window image (base + a) n) := by
  refine unpack_unpackFrom_eq_ok.mpr ⟨?_, (window_window ha).symm⟩
  rw [length_window]
  omega

/-- The geometry block, as both readers of it find it. -/
theorem geometry_eq_ok (h : LpUnpack.readGeometry image = .ok g) :
    4096 + 52 ≤ image.length ∧ leAt 4 image 4096 = LpUnpack.GEOMETRY_MAGIC ∧
      leAt 4 image 4136 = g.metadataMaxSize := by
  rw [LpUnpack.readGeometry] at h
  obtain ⟨b, hb, h⟩ := bind_eq_ok.mp h
  obtain ⟨-, rfl⟩ := unpack_unpackFrom_eq_ok.mp hb
  obtain ⟨hmagic, h⟩ := guard_eq_ok.mp h
  obtain ⟨b, hb, h⟩ := bind_eq_ok.mp h
  obtain ⟨hlen, rfl⟩ := unpack_unpackFrom_eq_ok.mp hb
  rw [length_window, LpUnpack.PARTITION_RESERVED_BYTES, LpUnpack.GEOMETRY_SIZE] at hlen
  rw [not_not, leAt_window (by omega), leAt_window (by decide),
    LpUnpack.PARTITION_RESERVED_BYTES] at hmagic
  refine ⟨by omega, hmagic, ?_⟩
  rw [← pure_eq_ok.mp h]
  change _ = leAt 4 (window _ _ _) 0
  rw [leAt_window (by omega), leAt_window (by decide)]
  rfl

/-- What `parse_partitions` makes of an entry. -/
def unpackedOf (p : Bytes) : LpUnpack.Partition :=
  ⟨partName p, leAt 4 p 36, leAt 4 p 40, leAt 4 p 44, leAt 4 p 48⟩

theorem parsePartition_slot {a : ℕ} (ha : a + 52 ≤ slotSize)
    (hin : base + slotSize ≤ image.length) :
    LpUnpack.parsePartition (window image base slotSize) a
      = .ok (unpackedOf (window image (base + a) 52)) := by
  rw [LpUnpack.parsePartition, unpackFrom_slot (by omega) (by omega)]
  change Except.ok _ = _
  rw [unpackedOf, partName, window_window (by omega), ← Nat.add_assoc, leAt_window (by omega),
    leAt_window (by omega), leAt_window (by omega), leAt_window (by omega), leAt_window (by omega),
    leAt_window (by omega), leAt_window (by omega), leAt_window (by omega)]
  have htake : (window image (base + a) 52).take 36 = window image (base + a) 36 := by
    rw [window, window, List.take_take]
    rfl
  rw [htake]

theorem parseExtent_slot {a : ℕ} (ha : a + 24 ≤ slotSize) (hin : base + slotSize ≤ image.length) :
    LpUnpack.parseExtent (window image base slotSize) a
      = .ok (extentOf (window image (base + a) 24)) := by
  rw [LpUnpack.parseExtent, unpackFrom_slot (by omega) (by omega)]
  rfl

theorem descriptor_slot {i : ℕ} (hi : 80 + 12 * i + 12 ≤ slotSize)
    (hin : base + slotSize ≤ image.length) :
    LpUnpack.descriptor (window image base slotSize) i
      = .ok (descAt image (base + (80 + 12 * i))) := by
  rw [LpUnpack.descriptor, unpackFrom_slot (by omega) (by omega)]
  change Except.ok _ = _
  rw [leAt_window (by omega), leAt_window (by omega), leAt_window (by omega), Nat.mul_comm i 12]
  rfl

/-- The entry sizes and the length of a record inside a table. -/
theorem record_inside {t : Descriptor} {i sz : ℕ} (hi : i < t.numEntries) (hsz : t.entrySize = sz)
    (h : m.hdrSize + t.offset + t.numEntries * t.entrySize ≤ slotSize) :
    m.hdrSize + t.offset + i * t.entrySize + sz ≤ slotSize := by
  have hmul : (i + 1) * t.entrySize ≤ t.numEntries * t.entrySize := Nat.mul_le_mul_right _ hi
  rw [Nat.succ_mul] at hmul
  omega

/-- **`lpunpack.py` reads a slot** as `lp-resize-partition.py` does. -/
theorem Slot.unpack_reads (h : Slot image base slotSize m)
    (hg : LpUnpack.readGeometry image = .ok g)
    (hbase : LpUnpack.slotOffset g slot = base) (hsize : slotSize ≤ g.metadataMaxSize)
    (hin : base + g.metadataMaxSize ≤ image.length) :
    ∃ parts exts, LpUnpack.readTables image slot = .ok (parts, exts) ∧
      parts.map (fun p => (p.name, LpUnpack.extentsOf p exts))
        = (logicalPartitions image m).map fun p => (p.name, p.extents.map some) := by
  obtain ⟨hmagic, hm⟩ := h.eq_parsed
  have h128 := h.hdrSize
  have hP := h.tables_inside m.partitions (by simp)
  have hE := h.tables_inside m.extents (by simp)
  have hhead : LpUnpack.headerOf slot (window image base g.metadataMaxSize) = .ok
      ⟨m.version, m.hdrSize, m.partitions, m.extents, m.groups, m.devices,
        window image base g.metadataMaxSize⟩ := by
    rw [LpUnpack.headerOf, unpackFrom_slot (by omega) (by omega), descriptor_slot (by omega) hin,
      descriptor_slot (by omega) hin, descriptor_slot (by omega) hin,
      descriptor_slot (by omega) hin]
    refine guard_eq_ok.mpr ⟨?_, ?_⟩
    · rw [leAt_window (by omega), not_not]
      exact hmagic
    · change Except.ok _ = _
      rw [leAt_window (by omega), leAt_window (by omega), leAt_window (by omega)]
      rw [congrArg Metadata.version hm, congrArg Metadata.hdrSize hm,
        congrArg Metadata.partitions hm, congrArg Metadata.extents hm,
        congrArg Metadata.groups hm, congrArg Metadata.devices hm]
      rfl
  have hparts : LpUnpack.parsePartitions ⟨m.version, m.hdrSize, m.partitions, m.extents, m.groups,
      m.devices, window image base g.metadataMaxSize⟩
      = .ok ((entries image m m.partitions).map unpackedOf) := by
    rw [h.entries_eq, records, List.map_map]
    refine mapM_eq_ok fun i hi => ?_
    have hrec := record_inside (List.mem_range.mp hi) h.partitions_size hP
    rw [parsePartition_slot (hrec.trans hsize) hin, Function.comp_apply, h.partitions_size,
      ← Nat.add_assoc, ← Nat.add_assoc]
  have hexts : LpUnpack.parseExtents ⟨m.version, m.hdrSize, m.partitions, m.extents, m.groups,
      m.devices, window image base g.metadataMaxSize⟩
      = .ok ((entries image m m.extents).map extentOf) := by
    rw [h.entries_eq, records, List.map_map]
    refine mapM_eq_ok fun i hi => ?_
    have hrec := record_inside (List.mem_range.mp hi) h.extents_size hE
    rw [parseExtent_slot (hrec.trans hsize) hin, Function.comp_apply, h.extents_size,
      ← Nat.add_assoc, ← Nat.add_assoc]
  refine ⟨(entries image m m.partitions).map unpackedOf,
    (entries image m m.extents).map extentOf, ?_, ?_⟩
  · have hread : LpUnpack.readHeader image g slot = .ok ⟨m.version, m.hdrSize, m.partitions,
        m.extents, m.groups, m.devices, window image base g.metadataMaxSize⟩ := by
      rw [LpUnpack.readHeader, hbase, if_neg (by omega), Int.toNat_natCast, hhead]
    rw [LpUnpack.readTables]
    refine bind_eq_ok.mpr ⟨g, hg, bind_eq_ok.mpr ⟨_, hread, bind_eq_ok.mpr ⟨_, hparts,
      bind_eq_ok.mpr ⟨_, hexts, rfl⟩⟩⟩⟩
  · rw [logicalPartitions, List.map_map, List.map_map]
    refine List.map_congr_left fun p hp => ?_
    have hrange := h.ranges_inside p hp
    have hlen : (entries image m m.extents).length = m.extents.numEntries := by
      rw [h.entries_eq, records, List.length_map, List.length_range]
    rw [Function.comp_apply, Function.comp_apply]
    refine Prod.ext rfl ?_
    exact LpUnpack.extentsOf_eq (by rw [List.length_map, hlen]; exact hrange)

end Unpack

/-! ### `lpdump-from-super.py` -/

section Dump

variable {image : Bytes} {base slotSize : ℕ} {m : Metadata} {slot : ℤ}

/-- What `parse` reads of an extent. -/
def dumpedOf (e : Extent) : LpDump.DumpedExtent := (e.numSectors, e.targetType, e.targetData)

theorem dump_unpackFrom {a n : ℕ} (hin : a + n ≤ image.length) :
    LpDump.unpackFrom image (a : ℤ) n = .ok (window image a n) := by
  rw [LpDump.unpackFrom, bufferAt_natCast, if_pos hin]

theorem extentAt_natCast {a : ℕ} (hin : a + 24 ≤ image.length) :
    LpDump.extentAt image (a : ℤ) = .ok (dumpedOf (extentOf (window image a 24))) := by
  rw [LpDump.extentAt, dump_unpackFrom (by omega)]
  change Except.ok _ = _
  rw [dumpedOf, extentOf, leAt_window (by omega), leAt_window (by omega), leAt_window (by omega),
    leAt_window (by omega), leAt_window (by omega), leAt_window (by omega)]

/-- The extents of an entry, looked up one by one, are its range of the extents table. -/
theorem extents_of_range (h : Slot image base slotSize m) {first n : ℕ}
    (hrange : first + n ≤ m.extents.numEntries) :
    (List.range n).mapM (fun k => LpDump.extentAt image
        ((base : ℤ) + m.hdrSize + m.extents.offset + ((first + k) * m.extents.entrySize : ℕ)))
      = .ok ((window ((entries image m m.extents).map extentOf) first n).map dumpedOf) := by
  have hE := h.tables_inside m.extents (by simp)
  have hslot := h.slot_inside
  have hwindow : window ((entries image m m.extents).map extentOf) first n
      = (List.range n).map fun k => extentOf (window image
          (base + m.hdrSize + m.extents.offset + (first + k) * m.extents.entrySize) 24) := by
    refine List.ext_getElem? ?_
    intro k
    rw [getElem?_window, List.getElem?_map, List.getElem?_map, h.entries_eq, records,
      List.getElem?_map]
    split_ifs with hk
    · rw [List.getElem?_range hk, List.getElem?_range (by omega), h.extents_size]
      rfl
    · rw [List.getElem?_eq_none (by simpa using hk)]
      rfl
  rw [hwindow, List.map_map]
  refine mapM_eq_ok fun k hk => ?_
  have hlt : first + k < m.extents.numEntries := by
    have := List.mem_range.mp hk
    omega
  have hrec := record_inside hlt h.extents_size hE
  rw [← Nat.cast_add, ← Nat.cast_add, ← Nat.cast_add, extentAt_natCast (by omega)]
  rfl

theorem partitionAt_natCast (h : Slot image base slotSize m) {i : ℕ}
    (hi : i < m.partitions.numEntries) :
    LpDump.partitionAt image
        ⟨(base : ℤ) + m.hdrSize + m.extents.offset, m.extents.numEntries, m.extents.entrySize⟩
        ((base : ℤ) + m.hdrSize + m.partitions.offset + (i * m.partitions.entrySize : ℕ))
      = .ok (partName (window image
          (base + m.hdrSize + m.partitions.offset + i * m.partitions.entrySize) 52),
        (partitionOf ((entries image m m.extents).map extentOf) (window image
          (base + m.hdrSize + m.partitions.offset + i * m.partitions.entrySize) 52)).extents.map
            dumpedOf) := by
  have hP := h.tables_inside m.partitions (by simp)
  have hslot := h.slot_inside
  have hrec := record_inside hi h.partitions_size hP
  have hmem : window image (base + m.hdrSize + m.partitions.offset + i * m.partitions.entrySize) 52
      ∈ entries image m m.partitions := by
    rw [h.entries_eq, records, ← h.partitions_size]
    exact List.mem_map.mpr ⟨i, List.mem_range.mpr hi, rfl⟩
  have hrange := h.ranges_inside _ hmem
  have hstart : (base : ℤ) + m.hdrSize + m.partitions.offset + (i * m.partitions.entrySize : ℕ)
      = (base + m.hdrSize + m.partitions.offset + i * m.partitions.entrySize : ℕ) := by
    push_cast
    rfl
  rw [hstart]
  generalize hp : base + m.hdrSize + m.partitions.offset + i * m.partitions.entrySize = p at *
  rw [leAt_window (by omega), leAt_window (by omega)] at hrange
  rw [LpDump.partitionAt, show ((p : ℤ) + 40) = ((p + 40 : ℕ) : ℤ) by push_cast; rfl,
    show ((p : ℤ) + 36) = ((p + 36 : ℕ) : ℤ) by push_cast; rfl, dump_unpackFrom (by omega),
    pySlice_natCast, Nat.add_sub_cancel_left]
  refine bind_eq_ok.mpr ⟨_, rfl, ?_⟩
  rw [leAt_window (by omega), leAt_window (by omega), Nat.add_zero]
  refine bind_eq_ok.mpr ⟨_, extents_of_range h hrange, ?_⟩
  have htake : (window image p 52).take 36 = window image p 36 := by
    rw [window, window, List.take_take]
    rfl
  have hextents : (partitionOf ((entries image m m.extents).map extentOf)
      (window image p 52)).extents
      = window ((entries image m m.extents).map extentOf) (leAt 4 image (p + 40))
          (leAt 4 image (p + 40 + 4)) := by
    change window _ (leAt 4 (window image p 52) 40) (leAt 4 (window image p 52) 44) = _
    rw [leAt_window (by omega), leAt_window (by omega)]
  rw [partName, htake, hextents]
  rfl

/-- **`lpdump-from-super.py` reads a slot** as `lp-resize-partition.py` does. -/
theorem Slot.dump_reads (h : Slot image base slotSize m) (hlen : 4096 + 52 ≤ image.length)
    (hmagic : leAt 4 image 4096 = LpUnpack.GEOMETRY_MAGIC)
    (hbase : (12288 : ℤ) + slot * leAt 4 image 4136 = base) :
    LpDump.partitions image slot
      = .ok ((logicalPartitions image m).map fun p => (p.name, p.extents.map dumpedOf)) := by
  obtain ⟨hmagic', hm⟩ := h.eq_parsed
  have h128 := h.hdrSize
  have hhdr := h.hdr_inside
  have htable : ∀ off : ℕ, off + 12 ≤ 128 → LpDump.table image base m.hdrSize off
      = .ok ⟨(base : ℤ) + m.hdrSize + (descAt image (base + off)).offset,
        (descAt image (base + off)).numEntries, (descAt image (base + off)).entrySize⟩ := by
    intro off hoff
    rw [LpDump.table, ← Nat.cast_add, dump_unpackFrom (by omega)]
    change Except.ok _ = _
    rw [leAt_window (by omega), leAt_window (by omega), leAt_window (by omega)]
    rfl
  have hparts := htable 0x50 (by omega)
  have hexts := htable 0x5C (by omega)
  have hhdrSize : leAt 4 (window image base 12) 8 = m.hdrSize := by
    rw [leAt_window (by omega), congrArg Metadata.hdrSize hm]
  rw [show descAt image (base + 0x50) = m.partitions by rw [hm]; rfl] at hparts
  rw [show descAt image (base + 0x5C) = m.extents by rw [hm]; rfl] at hexts
  rw [LpDump.partitions]
  refine bind_eq_ok.mpr ⟨_, dump_unpackFrom (a := 4096) (by omega), guard_eq_ok.mpr ⟨?_, ?_⟩⟩
  · rw [leAt_window (by omega), not_not]
    exact hmagic
  refine bind_eq_ok.mpr ⟨_, dump_unpackFrom (a := 4136) (by omega), ?_⟩
  rw [leAt_window (by omega), show ((LpDump.GEOMETRY_OFFSET + 2 * LpDump.GEOMETRY_SIZE : ℕ) : ℤ)
    + slot * leAt 4 image (4136 + 0) = base from hbase]
  refine bind_eq_ok.mpr ⟨_, dump_unpackFrom (by omega), guard_eq_ok.mpr ⟨?_, ?_⟩⟩
  · rw [leAt_window (by omega), not_not]
    exact hmagic'
  rw [hhdrSize]
  refine bind_eq_ok.mpr ⟨_, hparts, bind_eq_ok.mpr ⟨_, hexts, ?_⟩⟩
  rw [logicalPartitions, h.entries_eq m.partitions, records, List.map_map, List.map_map,
    h.partitions_size]
  refine mapM_eq_ok fun i hi => ?_
  have hread := partitionAt_natCast h (List.mem_range.mp hi)
  rw [h.partitions_size] at hread
  exact hread

end Dump

/-! ### The rebuilt slot -/

section Rebuilt

variable {sha : Sha256} {d blob image : Bytes} {base slotSize : ℕ} {m m' : Metadata}
  {target : Text} {newSize slot : ℤ}

/-- The tables stand one after another, from `off` to `stop`. -/
def BackToBack (stop : ℕ) : ℕ → List Descriptor → Prop
  | off, [] => off = stop
  | off, t :: ts => t.offset = off ∧ BackToBack stop (off + t.numEntries * t.entrySize) ts

/-- The metadata `m'` in `blob` are those of the slot, re-encoded with other extents. -/
structure Reencoded (sha : Sha256) (d : Bytes) (base : ℕ) (m : Metadata) (blob : Bytes)
    (m' : Metadata) : Prop where
  parsed : parseMetadata blob (0 : ℕ) = .ok (some m')
  length_blob : blob.length = m'.hdrSize + m'.tablesSize
  back_to_back : BackToBack m'.tablesSize 0 [m'.partitions, m'.extents, m'.groups, m'.devices]
  /-- The partitions' index ranges are consecutive and use up the extents table. -/
  ranges : ∃ ns : List ℕ, (entries blob m' m'.partitions).map rangeOf = consecutive 0 ns ∧
    ns.sum = m'.extents.numEntries
  partitions : List.Forall₂ SameEntry (entries d m m.partitions) (entries blob m' m'.partitions)
  groups : m'.groups.numEntries = m.groups.numEntries ∧
    tableBlob blob m' m'.groups = tableBlob d m m.groups
  devices : m'.devices.numEntries = m.devices.numEntries ∧
    tableBlob blob m' m'.devices = tableBlob d m m.devices
  hdrSize : m'.hdrSize = m.hdrSize
  /-- The header outside the checksums, the tables size and the descriptors. -/
  header : ∀ i n, i + n ≤ 12 ∨ 128 ≤ i ∧ i + n ≤ m.hdrSize →
    window blob i n = window d (base + i) n
  tables_checksum : window blob H_TABLES_CSUM 32
    = sha.digest (window blob m'.hdrSize m'.tablesSize)
  header_checksum : window blob H_HEADER_CSUM 32
    = sha.digest (splice (window blob 0 m'.hdrSize) H_HEADER_CSUM (List.replicate 32 0))

/-- The image has a geometry, and `blob` stands at the start of the slot. -/
structure Holds (image : Bytes) (slot : ℤ) (blob : Bytes) (g : LpUnpack.Geometry) (base : ℕ) :
    Prop where
  geometry : LpUnpack.readGeometry image = .ok g
  slot_eq : LpUnpack.slotOffset g slot = base
  fits : blob.length ≤ g.metadataMaxSize
  inside : base + g.metadataMaxSize ≤ image.length
  stands : window image base blob.length = blob

/-- Well-formed metadata are so wherever they stand. -/
theorem Slot.placed (h : Slot blob 0 blob.length m) (hin : base + blob.length ≤ image.length)
    (hstands : window image base blob.length = blob) :
    Slot image base blob.length (m.movedTo base) ∧
      logicalPartitions image (m.movedTo base) = logicalPartitions blob m := by
  have hentries := fun t ht => h.enclosed.entries_placed hstands (t := t) ht
  refine ⟨⟨h.enclosed.parsed_placed hin hstands, hin, h.hdrSize, h.tables_inside, h.partitions_size,
    h.extents_size, h.groups_size, h.devices_size, ?_⟩, ?_⟩
  · intro p hp
    exact h.ranges_inside p (hentries m.partitions (by simp) ▸ hp)
  · change (entries image (m.movedTo base) m.partitions).map _ = _
    rw [hentries m.partitions (by simp), logicalPartitions]
    change List.map (partitionOf ((entries image (m.movedTo base) m.extents).map extentOf)) _ = _
    rw [hentries m.extents (by simp)]

/-- What `Slot.placed` and the readers give for a slot that holds well-formed metadata. -/
theorem Holds.reads {g : LpUnpack.Geometry} (hholds : Holds image slot blob g base)
    (h : Slot blob 0 blob.length m) :
    (∃ parts exts, LpUnpack.readTables image slot = .ok (parts, exts) ∧
      parts.map (fun p => (p.name, LpUnpack.extentsOf p exts))
        = (logicalPartitions blob m).map fun p => (p.name, p.extents.map some)) ∧
    LpDump.partitions image slot
      = .ok ((logicalPartitions blob m).map fun p => (p.name, p.extents.map dumpedOf)) := by
  have hfits := hholds.fits
  have hinside := hholds.inside
  obtain ⟨hslot, hsame⟩ := h.placed (by omega) hholds.stands
  obtain ⟨hlen, hmagic, hmax⟩ := geometry_eq_ok hholds.geometry
  rw [← hsame]
  refine ⟨hslot.unpack_reads hholds.geometry hholds.slot_eq hfits hinside,
    hslot.dump_reads hlen hmagic ?_⟩
  rw [hmax, mul_comm]
  exact hholds.slot_eq

/-- What a rebuilt slot is, for entries of full size. -/
theorem reencoded_of_rebuild {plan : List (List Bytes)} (h : Slot d base slotSize m)
    (hplan : ∀ e ∈ plan.flatten, e.length = 24)
    (hlen : (entries d m m.partitions).length = plan.length)
    (hb : rebuild sha d m (entries d m m.partitions) plan = .ok blob)
    (hparsed : parseMetadata blob (0 : ℕ) = .ok (some m')) : Reencoded sha d base m blob m' := by
  obtain ⟨parts', hdr, tables, hbuilt⟩ := rebuilt_of_eq_ok h.parsed h.hdr_inside h.base_eq hb
  obtain ⟨hsame, -, hranges, -⟩ := reindex_spec [] hlen hbuilt.reindexed
  have hparts : ∀ p ∈ parts', p.length = m.partitions.entrySize :=
    (forall_length_iff (· = m.partitions.entrySize) hsame).mpr
      fun p hp => h.length_entry (by simp) hp
  rw [← h.extents_size] at hplan
  have hG : (tableBlob d m m.groups).length = m.groups.numEntries * m.groups.entrySize := by
    rw [h.tableBlob_eq, length_window_of_le (h.table_end (by simp))]
  have hD : (tableBlob d m m.devices).length = m.devices.numEntries * m.devices.entrySize := by
    rw [h.tableBlob_eq, length_window_of_le (h.table_end (by simp))]
  obtain ⟨hreadP, hreadE, hreadG, hreadD⟩ := hbuilt.read hparts hplan hG hD [] rfl
  have hparsed' := hbuilt.parsed []
  obtain ⟨hheader, htablesum⟩ := hbuilt.checksums_eq []
  rw [List.append_nil] at hreadP hreadE hreadG hreadD hparsed' hheader htablesum
  obtain rfl := Option.some.inj (Except.ok.inj (hparsed'.symm.trans hparsed))
  have hP := length_flatten_of_forall hparts
  have hE := length_flatten_of_forall hplan
  have htables := congrArg List.length hbuilt.tables_eq
  have hblob := congrArg List.length hbuilt.blob_eq
  have h128 := hbuilt.hdrSize
  have hlhdr := hbuilt.length_hdr
  simp only [List.length_append, hP, hE, hG, hD, hlhdr] at htables hblob
  refine ⟨hparsed, hblob, ⟨rfl, ?_, ?_, ?_, ?_⟩, ⟨plan.map List.length, ?_, ?_⟩, ?_, ⟨rfl, hreadG⟩,
    ⟨rfl, hreadD⟩, rfl, ?_, htablesum, hheader⟩
  · exact (Nat.zero_add _).symm
  · change _ = 0 + parts'.length * m.partitions.entrySize + _
    rw [Nat.zero_add]
    rfl
  · change _ = 0 + parts'.length * m.partitions.entrySize + _ + _
    rw [Nat.zero_add]
    rfl
  · change 0 + parts'.length * m.partitions.entrySize + _ + _ + _ = tables.length
    rw [htables, Nat.zero_add]
    rfl
  · rw [hreadP]
    exact hranges
  · exact (List.length_flatten ..).symm
  · rw [hreadP]
    exact hsame
  · intro i n hin
    rw [hbuilt.blob_eq, window_append_left (by omega), hbuilt.kept i n (by omega),
      window_window (by omega)]

/-- **The rebuilt metadata are a faithful re-encoding** of the slot, and the three readers decode
the same partitions and extents from them. -/
theorem patchSlot_faithful (h : Slot d base slotSize m)
    (hb : patchSlot sha d base target newSize = .ok (some blob)) :
    ∃ m', Reencoded sha d base m blob m' ∧
      ∀ image slot g start, Holds image slot blob g start →
        (∃ parts exts, LpUnpack.readTables image slot = .ok (parts, exts) ∧
          parts.map (fun p => (p.name, LpUnpack.extentsOf p exts))
            = (logicalPartitions blob m').map fun p => (p.name, p.extents.map some)) ∧
        LpDump.partitions image slot
          = .ok ((logicalPartitions blob m').map fun p => (p.name, p.extents.map dumpedOf)) := by
  obtain ⟨firstLogical, devSectors, plan, idx, cur, high, newExt, hdev, hplan, hidx, hcur,
    hgrows⟩ := patchSlot_eq_some h.parsed hb
  obtain ⟨hlen, hraw, -⟩ := logicalPartitions_eq hplan
  have hlen' : (entries d m m.partitions).length
      = (plan.modify idx (· ++ [newExt])).length := by
    rw [List.length_modify, hlen]
  have hsizes : ∀ p ∈ entries d m m.partitions, p.length = 52 := by
    intro p hp
    rw [h.length_entry (by simp) hp, h.partitions_size]
  have hexts : ∀ e ∈ (plan.modify idx (· ++ [newExt])).flatten, e.length = 24 := by
    intro e he
    rw [← h.extents_size]
    rcases mem_flatten_modify he with he | rfl
    · exact h.length_entry (by simp) (hraw e he)
    · exact (newExtent_eq_ok hgrows.newExt_eq).1
  obtain ⟨m', hslot, -⟩ := rebuild_decodes h hsizes hexts hlen' hgrows.rebuild_eq
  exact ⟨m', reencoded_of_rebuild h hexts hlen' hgrows.rebuild_eq hslot.parsed,
    fun image slot g start hholds => hholds.reads hslot⟩

end Rebuilt

/-- The geometry of the small dumps, as the other reader finds it. -/
theorem unpackGeometry_small (rest : Bytes) :
    LpUnpack.readGeometry (smallHead ++ rest) = .ok ⟨0, 512, 1, 4096⟩ := by
  have hlen : 12288 ≤ (smallHead ++ rest).length := by
    rw [List.length_append, length_smallHead]
    omega
  have hread : ∀ a n, a + n ≤ 52 → LpUnpack.unpackFrom (window (smallHead ++ rest) 4096 4096) a n
      = .ok (window smallFields a n) := by
    intro a n h
    rw [unpackFrom_slot (by omega) (by omega), window_smallFields rest h]
  rw [LpUnpack.readGeometry, LpUnpack.PARTITION_RESERVED_BYTES, LpUnpack.GEOMETRY_SIZE,
    hread 0 8 (by omega), hread _ 12 (by omega)]
  decide +kernel

/-- A dump with the grown slot in both copies. -/
def smallImage : Bytes := smallHead ++ (padded 512 grownSlot ++ padded 512 grownSlot)

theorem holds_small : Holds smallImage 0 grownSlot ⟨0, 512, 1, 4096⟩ 12288 where
  geometry := unpackGeometry_small _
  slot_eq := rfl
  fits := length_grownSlot
  inside := by
    rw [smallImage, List.length_append, length_smallHead, List.length_append,
      length_padded length_grownSlot]
    decide
  stands := by
    have hparts : smallImage = smallHead ++ (grownSlot ++
        (List.replicate (512 - grownSlot.length) 0 ++ padded 512 grownSlot)) := by
      rw [smallImage]
      nth_rewrite 1 [padded]
      rw [List.append_assoc]
    exact window_of_parts hparts length_smallHead

theorem patchSlot_faithful_small : ∃ m', Reencoded smallSha smallSlot 0 smallMetadata grownSlot m' ∧
    LpDump.partitions smallImage 0
      = .ok ((logicalPartitions grownSlot m').map fun p => (p.name, p.extents.map dumpedOf)) := by
  obtain ⟨m', hencoded, hreads⟩ := patchSlot_faithful slot_small patchSlot_small
  exact ⟨m', hencoded, (hreads smallImage 0 _ 12288 holds_small).2⟩

end LpResize

end PalmaEos
