import Mathlib.Data.PNat.Defs
import PalmaEos.Lib.AddressSpace
import PalmaEos.Lib.Text

/-!
# `lpunpack.py`

Reading the LP metadata of a `super` image and extracting one logical partition from it.

The metadata readers work on the bytes of the image. `extract` reads through a `Reader`: an open
file of which each `read(k)` hands out some, but not necessarily all, of the next `k` bytes, and two
reads of the same bytes not necessarily as many. It returns
what it has written to the destination by the time it stops, together with how it stops, since a
failing extraction leaves its partial file behind.

## Main results

* `readLoop_window` — the chunked copy, whatever the chunk size and however short the reads
* `extract_linear` — extracting a partition of LINEAR extents
* `readTables_congr` — the metadata readers look at two windows of the image only
-/

namespace PalmaEos

namespace LpUnpack

def SECTOR_SIZE : ℕ := 512
def PARTITION_RESERVED_BYTES : ℕ := 4096
def GEOMETRY_SIZE : ℕ := 4096
def GEOMETRY_MAGIC : ℕ := 0x616C4467
def HEADER_MAGIC : ℕ := 0x414C5030
def TARGET_TYPE_LINEAR : ℕ := 0
def TARGET_TYPE_ZERO : ℕ := 1

/-- `LpError`, by the data of its message. -/
inductive LpError
  /-- no LP geometry magic at offset 4096 -/
  | noGeometryMagic (got : ℕ)
  /-- no LP header magic in metadata slot -/
  | noHeaderMagic (slot : ℤ) (got : ℕ)
  /-- unsupported extent target type -/
  | unsupportedTargetType (targetType : ℕ)
  /-- unexpected EOF reading the partition, image may be truncated -/
  | unexpectedEof (name : Text) (short : ℕ)
  deriving DecidableEq

/-- How the script can fail: with its own `LpError`, or with an exception of Python's. -/
inductive UnpackError
  | lp (e : LpError)
  /-- `struct.error`: the buffer is too short. -/
  | struct
  /-- A seek to a negative offset. -/
  | seek
  /-- `IndexError`. -/
  | index
  deriving DecidableEq

/-! ### The metadata -/

structure Geometry where
  structSize : ℕ
  metadataMaxSize : ℕ
  metadataSlotCount : ℕ
  logicalBlockSize : ℕ
  deriving DecidableEq

/-- A table descriptor of the header. -/
structure Descriptor where
  offset : ℕ
  numEntries : ℕ
  entrySize : ℕ
  deriving DecidableEq

structure Header where
  version : ℕ × ℕ
  headerSize : ℕ
  partitions : Descriptor
  extents : Descriptor
  groups : Descriptor
  blockDevices : Descriptor
  blob : Bytes
  deriving DecidableEq

structure Partition where
  name : Text
  attributes : ℕ
  firstExtentIndex : ℕ
  numExtents : ℕ
  groupIndex : ℕ
  deriving DecidableEq

structure Extent where
  numSectors : ℕ
  targetType : ℕ
  targetData : ℕ
  targetSource : ℕ
  deriving DecidableEq

/-- `struct.unpack_from` on `n` bytes at `off`: the bytes that are then taken apart. -/
def unpackFrom (blob : Bytes) (off n : ℕ) : Except UnpackError Bytes :=
  match bufferAt blob off n with
  | some b => .ok b
  | none => .error .struct

/-- `read_geometry`. -/
def readGeometry (image : Bytes) : Except UnpackError Geometry := do
  let blob := window image PARTITION_RESERVED_BYTES GEOMETRY_SIZE
  let b ← unpackFrom blob 0 8
  if leAt 4 b 0 ≠ GEOMETRY_MAGIC then .error (.lp (.noGeometryMagic (leAt 4 b 0)))
  else
    let g ← unpackFrom blob (4 + 4 + 32) 12
    return ⟨leAt 4 b 4, leAt 4 g 0, leAt 4 g 4, leAt 4 g 8⟩

/-- Where the metadata of `slot` starts. -/
def slotOffset (geometry : Geometry) (slot : ℤ) : ℤ :=
  (PARTITION_RESERVED_BYTES + GEOMETRY_SIZE * 2 : ℕ) + geometry.metadataMaxSize * slot

/-- `descriptor(i)`. -/
def descriptor (blob : Bytes) (i : ℕ) : Except UnpackError Descriptor := do
  let b ← unpackFrom blob (4 + 2 + 2 + 4 + 32 + 4 + 32 + i * 12) 12
  return ⟨leAt 4 b 0, leAt 4 b 4, leAt 4 b 8⟩

/-- `read_header`, on the bytes it reads for the slot. -/
def headerOf (slot : ℤ) (blob : Bytes) : Except UnpackError Header := do
  let b ← unpackFrom blob 0 12
  if leAt 4 b 0 ≠ HEADER_MAGIC then .error (.lp (.noHeaderMagic slot (leAt 4 b 0)))
  else
    return {
      version := (leAt 2 b 4, leAt 2 b 6)
      headerSize := leAt 4 b 8
      partitions := ← descriptor blob 0
      extents := ← descriptor blob 1
      groups := ← descriptor blob 2
      blockDevices := ← descriptor blob 3
      blob := blob }

/-- `read_header`. -/
def readHeader (image : Bytes) (geometry : Geometry) (slot : ℤ) : Except UnpackError Header :=
  if slotOffset geometry slot < 0 then .error .seek
  else headerOf slot (window image (slotOffset geometry slot).toNat geometry.metadataMaxSize)

/-- One entry of `parse_partitions`. -/
def parsePartition (blob : Bytes) (off : ℕ) : Except UnpackError Partition := do
  let b ← unpackFrom blob (off + 36) 16
  return ⟨Text.decode ((window blob off 36).takeWhile (· ≠ 0)), leAt 4 b 0, leAt 4 b 4, leAt 4 b 8,
    leAt 4 b 12⟩

/-- `parse_partitions`. -/
def parsePartitions (header : Header) : Except UnpackError (List Partition) :=
  let t := header.partitions
  (List.range t.numEntries).mapM fun i =>
    parsePartition header.blob (header.headerSize + t.offset + i * t.entrySize)

/-- One entry of `parse_extents`. -/
def parseExtent (blob : Bytes) (off : ℕ) : Except UnpackError Extent := do
  let b ← unpackFrom blob off 24
  return ⟨leAt 8 b 0, leAt 4 b 8, leAt 8 b 12, leAt 4 b 20⟩

/-- `parse_extents`. -/
def parseExtents (header : Header) : Except UnpackError (List Extent) :=
  let t := header.extents
  (List.range t.numEntries).mapM fun i =>
    parseExtent header.blob (header.headerSize + t.offset + i * t.entrySize)

/-- What `main` reads before it extracts anything: the partitions and the extents of a slot. -/
def readTables (image : Bytes) (slot : ℤ) : Except UnpackError (List Partition × List Extent) := do
  let geometry ← readGeometry image
  let header ← readHeader image geometry slot
  return (← parsePartitions header, ← parseExtents header)

/-! ### Extraction -/

/-- The lookups `extents[part["first_extent_index"] + i]` of a partition, in order. -/
def extentsOf (part : Partition) (extents : List Extent) : List (Option Extent) :=
  (List.range part.numExtents).map fun i => extents[part.firstExtentIndex + i]?

/-- One summand of `partition_size`. -/
def extentSize : Option Extent → Except UnpackError ℕ
  | some e => .ok (e.numSectors * SECTOR_SIZE)
  | none => .error .index

/-- `partition_size`. -/
def partitionSize (part : Partition) (extents : List Extent) : Except UnpackError ℕ := do
  return (← (extentsOf part extents).mapM extentSize).sum

/-- An open file. `got i pos k` is how many bytes the read after `i` others hands out when it is a
`read(k)` at position `pos`: at most `k`, and at least one unless the file has ended or none is
asked for. -/
structure Reader where
  /-- The contents. -/
  bytes : Bytes
  /-- The length of a read. -/
  got : ℕ → ℕ → ℕ → ℕ
  got_le : ∀ i pos k, got i pos k ≤ k
  got_pos : ∀ i pos k, 0 < k → pos < bytes.length → 0 < got i pos k

/-- `f.read(k)` at position `pos`. -/
def Reader.read (f : Reader) (pos k : ℕ) : Bytes := window f.bytes pos (f.got 0 pos k)

/-- The file after a read. -/
def Reader.next (f : Reader) : Reader where
  bytes := f.bytes
  got i := f.got (i + 1)
  got_le i := f.got_le (i + 1)
  got_pos i := f.got_pos (i + 1)

/-- The reading loop of a LINEAR extent: what it writes, how many bytes it is short of when the
file ends first, and the file after it. -/
def readLoop (f : Reader) (chunk : ℕ+) (pos remaining : ℕ) : Bytes × Option ℕ × Reader :=
  if remaining = 0 then ([], none, f)
  else
    let buf := f.read pos (min chunk remaining)
    if buf = [] then ([], some remaining, f.next)
    else
      let (rest, short, f) := readLoop f.next chunk (pos + buf.length) (remaining - buf.length)
      (buf ++ rest, short, f)
termination_by remaining
decreasing_by
  have : 0 < buf.length := List.length_pos_iff.mpr ‹_›
  exact Nat.sub_lt (Nat.pos_of_ne_zero ‹_›) this

/-- The writing loop of a ZERO extent; `zeros` is the buffer it slices. -/
def zeroLoop (chunk : ℕ+) (zeros : Bytes) (remaining : ℕ) : Bytes :=
  if remaining = 0 then []
  else
    let n := min (chunk : ℕ) remaining
    zeros.take n ++ zeroLoop chunk zeros (remaining - n)
termination_by remaining
decreasing_by
  have := chunk.pos
  omega

/-- The extent loop of `extract`, over the looked-up extents still to do: the bytes written from
here on, the value returned or the exception raised, and the file after it. -/
def extractLoop (chunk : ℕ+) (name : Text) :
    Reader → List (Option Extent) → ℕ → Bytes × Except UnpackError ℕ × Reader
  | f, [], written => ([], .ok written, f)
  | f, none :: _, _ => ([], .error .index, f)
  | f, some e :: rest, written =>
    let length := e.numSectors * SECTOR_SIZE
    if e.targetType = TARGET_TYPE_ZERO then
      let zeros := List.replicate (min (chunk : ℕ) length) 0
      let (out, r) := extractLoop chunk name f rest (written + length)
      (zeroLoop chunk zeros length ++ out, r)
    else if e.targetType ≠ TARGET_TYPE_LINEAR then
      ([], .error (.lp (.unsupportedTargetType e.targetType)), f)
    else
      match readLoop f chunk (e.targetData * SECTOR_SIZE) length with
      | (buf, some short, f) => (buf, .error (.lp (.unexpectedEof name short)), f)
      | (buf, none, f) =>
        let (out, r) := extractLoop chunk name f rest (written + length)
        (buf ++ out, r)

/-- `extract`: what is in the destination file when it stops, and how it stops. -/
def extract (f : Reader) (part : Partition) (extents : List Extent) (chunk : ℕ+) :
    Bytes × Except UnpackError ℕ :=
  let (out, r, _) := extractLoop chunk part.name f (extentsOf part extents) 0
  (out, r)

/-- The file after `extract`. -/
def afterExtract (f : Reader) (part : Partition) (extents : List Extent) (chunk : ℕ+) : Reader :=
  (extractLoop chunk part.name f (extentsOf part extents) 0).2.2

/-! ### Reading a LINEAR extent -/

theorem Reader.read_eq_nil {f : Reader} {pos k : ℕ} (hk : 0 < k) (h : f.read pos k = []) :
    f.bytes.length ≤ pos := by
  by_contra hlt
  have hgot := f.got_pos 0 pos k hk (by omega)
  have hlen := congrArg List.length h
  rw [Reader.read, length_window, List.length_nil] at hlen
  omega

/-- A read is the next bytes of the file, no more than asked for. -/
theorem Reader.read_eq (f : Reader) (pos k : ℕ) :
    (f.read pos k).length ≤ k ∧ f.read pos k = window f.bytes pos (f.read pos k).length := by
  have hle := f.got_le 0 pos k
  rw [Reader.read, length_window]
  refine ⟨by omega, ?_⟩
  rw [window, window, List.take_eq_take_min, List.length_drop]

/-- **The chunked copy** copies what there is of the range, and is short by the rest. -/
theorem readLoop_window (f : Reader) (chunk : ℕ+) (pos remaining : ℕ) :
    ∃ f' : Reader, f'.bytes = f.bytes ∧
      readLoop f chunk pos remaining = (window f.bytes pos remaining,
        if (window f.bytes pos remaining).length = remaining then none
        else some (remaining - (window f.bytes pos remaining).length), f') := by
  fun_induction readLoop f chunk pos remaining with
  | case1 f pos => exact ⟨f, rfl, rfl⟩
  | case2 f pos remaining hrem buf hbuf =>
    have hend : f.bytes.length ≤ pos := Reader.read_eq_nil (lt_min chunk.pos (by omega)) hbuf
    have hnil : window f.bytes pos remaining = [] := by
      rw [window, List.drop_eq_nil_of_le hend, List.take_nil]
    rw [hnil, List.length_nil, if_neg (by omega), Nat.sub_zero]
    exact ⟨f.next, rfl, rfl⟩
  | case3 f pos remaining hrem buf hbuf rest short f₁ hrec ih =>
    obtain ⟨hle, hbuf'⟩ := Reader.read_eq f pos (min chunk remaining)
    change buf.length ≤ _ at hle
    change buf = window f.bytes pos buf.length at hbuf'
    have hle : buf.length ≤ remaining := by omega
    have hsplit : buf ++ window f.bytes (pos + buf.length) (remaining - buf.length)
        = window f.bytes pos remaining := by
      nth_rewrite 1 [hbuf']
      rw [window_append_window, Nat.add_sub_cancel' hle]
    have hlen := congrArg List.length hsplit
    rw [List.length_append] at hlen
    obtain ⟨f', hbytes, ih⟩ := ih
    rw [show f.next.bytes = f.bytes from rfl] at hbytes ih
    rw [hrec] at ih
    obtain ⟨hrest, hshort, rfl⟩ : rest = _ ∧ short = _ ∧ f₁ = f' := by
      simpa only [Prod.mk.injEq] using ih
    rw [hrest, hshort, hsplit]
    refine ⟨f₁, hbytes, ?_⟩
    generalize (window f.bytes (pos + buf.length) (remaining - buf.length)).length = n at *
    generalize (window f.bytes pos remaining).length = m at *
    congr 2
    by_cases hall : m = remaining
    · rw [if_pos hall, if_pos (by omega)]
    · rw [if_neg hall, if_neg (by omega)]
      congr 1
      omega

/-- Inside the file the copy has exactly the bytes asked for. -/
theorem readLoop_eq {f : Reader} (chunk : ℕ+) {pos remaining : ℕ}
    (h : pos + remaining ≤ f.bytes.length) :
    ∃ f' : Reader, f'.bytes = f.bytes ∧
      readLoop f chunk pos remaining = (window f.bytes pos remaining, none, f') := by
  have hlen : (window f.bytes pos remaining).length = remaining := by
    rw [length_window]
    omega
  obtain ⟨f', hbytes, hrun⟩ := readLoop_window f chunk pos remaining
  exact ⟨f', hbytes, by rw [hrun, if_pos hlen]⟩

/-- The image ranges of LINEAR extents. -/
def linearRanges (es : List Extent) : Layout :=
  es.map fun e => (e.targetData * SECTOR_SIZE, e.numSectors * SECTOR_SIZE)

theorem extractLoop_linear (chunk : ℕ+) (name : Text) :
    ∀ {es : List Extent} {f : Reader}, (∀ e ∈ es, e.targetType = TARGET_TYPE_LINEAR) →
      (∀ s ∈ linearRanges es, s.1 + s.2 ≤ f.bytes.length) → ∀ written,
      ∃ f' : Reader, extractLoop chunk name f (es.map some) written
        = ((linearRanges es).flatMap fun s => window f.bytes s.1 s.2,
          .ok (written + (linearRanges es).size), f')
  | [], f, _, _, written => ⟨f, rfl⟩
  | e :: es, f, hlin, hin, written => by
    have htype : e.targetType = 0 := hlin e List.mem_cons_self
    have hrange := hin _ List.mem_cons_self
    obtain ⟨f₁, hbytes, hread⟩ := readLoop_eq chunk hrange
    obtain ⟨f', hrest⟩ := extractLoop_linear chunk name
      (fun x hx => hlin x (List.mem_cons_of_mem _ hx))
      (fun s hs => hbytes.symm ▸ hin s (List.mem_cons_of_mem _ hs))
      (written + e.numSectors * SECTOR_SIZE)
    refine ⟨f', ?_⟩
    rw [List.map_cons, extractLoop, if_neg (by rw [htype]; decide),
      if_neg (by rw [htype]; decide)]
    dsimp only at hread ⊢
    rw [hread]
    dsimp only
    rw [hrest, hbytes, Nat.add_assoc]
    rfl

/-- The extents of a partition, when its index range lies inside the table. -/
theorem extentsOf_eq {part : Partition} {extents : List Extent}
    (h : part.firstExtentIndex + part.numExtents ≤ extents.length) :
    extentsOf part extents = (window extents part.firstExtentIndex part.numExtents).map some := by
  refine List.ext_getElem? ?_
  intro i
  rw [extentsOf, List.getElem?_map, List.getElem?_map, getElem?_window]
  rcases Nat.lt_or_ge i part.numExtents with hi | hi
  · rw [List.getElem?_range hi, if_pos hi, Option.map_some,
      List.getElem?_eq_getElem (by omega), Option.map_some]
  · rw [List.getElem?_eq_none (by simpa using hi), if_neg (by omega)]
    rfl

/-- **Extracting a partition of LINEAR extents** gives their image ranges, one after another. -/
theorem extract_linear (f : Reader) {part : Partition} {extents : List Extent} (chunk : ℕ+)
    (hidx : part.firstExtentIndex + part.numExtents ≤ extents.length)
    (hlin : ∀ e ∈ window extents part.firstExtentIndex part.numExtents,
      e.targetType = TARGET_TYPE_LINEAR)
    (hin : ∀ s ∈ linearRanges (window extents part.firstExtentIndex part.numExtents),
      s.1 + s.2 ≤ f.bytes.length) :
    extract f part extents chunk
      = ((linearRanges (window extents part.firstExtentIndex part.numExtents)).flatMap
          fun s => window f.bytes s.1 s.2,
        .ok (linearRanges (window extents part.firstExtentIndex part.numExtents)).size) := by
  obtain ⟨f', hrun⟩ := extractLoop_linear chunk part.name hlin hin 0
  rw [extract, extentsOf_eq hidx, hrun, Nat.zero_add]

theorem partitionSize_eq {part : Partition} {extents : List Extent}
    (hidx : part.firstExtentIndex + part.numExtents ≤ extents.length) :
    partitionSize part extents
      = .ok (linearRanges (window extents part.firstExtentIndex part.numExtents)).size := by
  have key : ∀ es : List Extent, (es.map some).mapM extentSize
      = .ok (es.map fun e => e.numSectors * SECTOR_SIZE) := by
    intro es
    induction es with
    | nil => rfl
    | cons e es ih => rw [List.map_cons, List.mapM_cons, ih]; rfl
  rw [partitionSize, extentsOf_eq hidx, key, Layout.size, linearRanges, List.map_map]
  rfl

/-! ### The frame of the metadata readers -/

/-- The readers look at the geometry block and at the slot they are asked for, nowhere else. -/
theorem readTables_congr {image image' : Bytes} {slot : ℤ}
    (hgeo : window image' PARTITION_RESERVED_BYTES GEOMETRY_SIZE
      = window image PARTITION_RESERVED_BYTES GEOMETRY_SIZE)
    (hslot : ∀ g, readGeometry image = .ok g →
      window image' (slotOffset g slot).toNat g.metadataMaxSize
        = window image (slotOffset g slot).toNat g.metadataMaxSize) :
    readTables image' slot = readTables image slot := by
  have hg : readGeometry image' = readGeometry image := by rw [readGeometry, readGeometry, hgeo]
  rw [readTables, readTables, hg]
  cases h : readGeometry image with
  | error e => rfl
  | ok g =>
    have hh : readHeader image' g slot = readHeader image g slot := by
      rw [readHeader, readHeader, hslot g h]
    change (readHeader image' g slot >>= _) = (readHeader image g slot >>= _)
    rw [hh]

end LpUnpack

end PalmaEos
