import PalmaEos.Lib.Checked
import PalmaEos.LpUnpack

/-!
# `lp-resize-partition.py`

Growing a logical partition by rewriting one metadata slot. `patchSlot` follows `patch_slot`: it
collects each partition's extents, looks for the highest sector in use, appends one LINEAR extent
behind it, and regenerates the extents table with every index.

Offsets into the dump are integers, as in the script, because the slot number that `main` computes
them from is not checked to be non-negative. SHA-256 is a parameter.
-/

namespace PalmaEos

namespace LpResize

open LpUnpack (Descriptor)

def GEOMETRY_OFFSET : ℕ := 4096
def GEOMETRY_SIZE : ℕ := 4096
def GEOMETRY_MAGIC : ℕ := 0x616C4467
def HEADER_MAGIC : ℕ := 0x414C5030
def SECTOR : ℕ := 512

def H_HEADER_CSUM : ℕ := 12
def H_TABLES_SIZE : ℕ := 44
def H_TABLES_CSUM : ℕ := 48
def H_PARTITIONS : ℕ := 0x50
def H_EXTENTS : ℕ := 0x5C
def H_GROUPS : ℕ := 104
def H_DEVICES : ℕ := 116

/-- The calls of `die` in `patch_slot` and what it calls, by the data of their messages. -/
inductive Die
  /-- no block devices in metadata -/
  | noBlockDevices
  /-- block device size looks wrong -/
  | deviceSize (size : ℕ)
  /-- partition not found -/
  | notFound (target : Text) (names : List Text)
  /-- need sectors, only some free at tail -/
  | noRoom (need free : ℤ)
  /-- the group would hold more than its maximum -/
  | groupFull (gname : Text) (after gmax : ℕ)
  deriving DecidableEq

inductive ResizeError
  | die (e : Die)
  /-- `struct.error`: a buffer is too short, or a value does not fit its field. -/
  | struct
  deriving DecidableEq

/-- The hash that seals header and tables. -/
structure Sha256 where
  digest : Bytes → Bytes
  length_digest : ∀ x, (digest x).length = 32

/-- `struct.unpack_from` on `n` bytes at `off`. -/
def unpackFrom (d : Bytes) (off : ℤ) (n : ℕ) : Except ResizeError Bytes :=
  match bufferAt d off n with
  | some b => .ok b
  | none => .error .struct

/-- `struct.pack_into`. -/
def packAt (d : Bytes) (off : ℕ) (fields : List (ℕ × ℕ)) : Except ResizeError Bytes :=
  match packInto d off fields with
  | some out => .ok out
  | none => .error .struct

/-! ### Reading a slot -/

/-- What `parse_metadata` returns. -/
structure Metadata where
  base : ℤ
  version : ℕ × ℕ
  hdrSize : ℕ
  tablesSize : ℕ
  partitions : Descriptor
  extents : Descriptor
  groups : Descriptor
  devices : Descriptor
  deriving DecidableEq

/-- `descriptor`. -/
def descriptor (d : Bytes) (base : ℤ) (off : ℕ) : Except ResizeError Descriptor := do
  let b ← unpackFrom d (base + off) 12
  return ⟨leAt 4 b 0, leAt 4 b 4, leAt 4 b 8⟩

/-- `parse_metadata`; `none` is a slot without the header magic. -/
def parseMetadata (d : Bytes) (base : ℤ) : Except ResizeError (Option Metadata) := do
  let b ← unpackFrom d base 12
  if leAt 4 b 0 ≠ HEADER_MAGIC then return none
  else
    let t ← unpackFrom d (base + H_TABLES_SIZE) 4
    return some {
      base := base
      version := (leAt 2 b 4, leAt 2 b 6)
      hdrSize := leAt 4 b 8
      tablesSize := leAt 4 t 0
      partitions := ← descriptor d base H_PARTITIONS
      extents := ← descriptor d base H_EXTENTS
      groups := ← descriptor d base H_GROUPS
      devices := ← descriptor d base H_DEVICES }

/-- Where a table starts. -/
def Metadata.start (m : Metadata) (t : Descriptor) : ℤ := m.base + m.hdrSize + t.offset

/-- `entries`: the raw entries of a table. -/
def entries (d : Bytes) (m : Metadata) (t : Descriptor) : List Bytes :=
  (List.range t.numEntries).map fun i =>
    pySlice d (m.start t + (i * t.entrySize : ℕ)) (m.start t + ((i + 1) * t.entrySize : ℕ))

/-- A whole table as it stands, `groups_blob` and `devs_blob`. -/
def tableBlob (d : Bytes) (m : Metadata) (t : Descriptor) : Bytes :=
  pySlice d (m.start t) (m.start t + (t.numEntries * t.entrySize : ℕ))

/-- `part_name`. -/
def partName (e : Bytes) : Text := Text.decode ((e.take 36).takeWhile (· ≠ 0))

/-- `extent_fields`: `num_sectors`, `target_type` and `target_data`. -/
def extentFields (e : Bytes) : Except ResizeError (ℕ × ℕ × ℕ) := do
  let b ← unpackFrom e 0 20
  return (leAt 8 b 0, leAt 4 b 8, leAt 8 b 12)

/-- `device_size_sectors`: `first_logical_sector` and the size in sectors. -/
def deviceSizeSectors (d : Bytes) (m : Metadata) : Except ResizeError (ℕ × ℕ) :=
  match entries d m m.devices with
  | [] => .error (.die .noBlockDevices)
  | dev :: _ => do
    let firstLogical ← unpackFrom dev 0 8
    let size ← unpackFrom dev 16 8
    if leAt 8 size 0 % SECTOR ≠ 0 ∨ leAt 8 size 0 < 1 <<< 30 then
      .error (.die (.deviceSize (leAt 8 size 0)))
    else return (leAt 8 firstLogical 0, leAt 8 size 0 / SECTOR)

/-! ### Planning the growth -/

/-- The extents of one partition, `exts[first:first + num]`. -/
def planOf (exts : List Bytes) (p : Bytes) : Except ResizeError (List Bytes) := do
  let b ← unpackFrom p 40 8
  return window exts (leAt 4 b 0) (leAt 4 b 4)

/-- The index of the last partition called `target`. -/
def indexOf (target : Text) (parts : List Bytes) : Option ℕ :=
  ((List.range parts.length).filter fun i => parts[i]?.map partName = some target).getLast?

/-- `sum(extent_fields(e)[0] for e in lst)`. -/
def sectors (lst : List Bytes) : Except ResizeError ℕ := do
  return ((← lst.mapM extentFields).map Prod.fst).sum

/-- The loop over all extents for the highest sector in use. -/
def highSector (firstLogical : ℕ) (plan : List (List Bytes)) : Except ResizeError ℕ :=
  plan.flatten.foldlM (fun high e => do
    let (n, t, data) ← extentFields e
    return if t = 0 then max high (data + n) else high) firstLogical

/-- `(n + align - 1) // align * align` with `align = 8`. -/
def alignUp8 (n : ℕ) : ℕ := (n + 8 - 1) / 8 * 8

/-- The loop that adds up the sectors of the partitions in group `gidx`. -/
def groupUsed (gidx : ℕ) : List (Bytes × List Bytes) → Except ResizeError ℕ
  | [] => return 0
  | (p, lst) :: rest => do
    let b ← unpackFrom p 48 4
    if leAt 4 b 0 = gidx then
      let n ← sectors lst
      return n + (← groupUsed gidx rest)
    else groupUsed gidx rest

/-- The check of the group limit. -/
def checkGroup (parts groups : List Bytes) (plan : List (List Bytes)) (part : Bytes) (need : ℕ) :
    Except ResizeError Unit := do
  let b ← unpackFrom part 48 4
  let gidx := leAt 4 b 0
  match groups[gidx]? with
  | none => return ()
  | some group =>
    let gmax := leAt 8 (← unpackFrom group 40 8) 0
    if gmax = 0 then return ()
    else
      let used ← groupUsed gidx (parts.zip plan)
      let after := (used + need) * SECTOR
      if after > gmax then .error (.die (.groupFull (partName group) after gmax)) else return ()

/-- `new_ext`: `need` sectors at physical sector `start`. -/
def newExtent (esz need start : ℕ) : Except ResizeError Bytes := do
  let e ← packAt (List.replicate esz 0) 0 [(8, need), (4, 0), (8, start)]
  if 24 ≤ esz then packAt e 20 [(4, 0)] else return e

/-! ### Rebuilding the slot -/

/-- The loop that gives each partition its range of the new extents table. -/
def reindex (cursor : ℕ) : List (Bytes × List Bytes) → Except ResizeError (List Bytes)
  | [] => return []
  | (p, lst) :: rest => do
    let p' ← packAt p 40 [(4, cursor), (4, lst.length)]
    return p' :: (← reindex (cursor + lst.length) rest)

/-- The loop that writes the table descriptors `(field, num, sz)`, the tables back to back. -/
def layTables (off : ℕ) : List (ℕ × ℕ × ℕ) → Bytes → Except ResizeError Bytes
  | [], hdr => return hdr
  | (field, num, sz) :: rest, hdr => do
    layTables (off + num * sz) rest (← packAt hdr field [(4, off), (4, num), (4, sz)])

/-- The two checksums. -/
def checksums (sha : Sha256) (tables hdr : Bytes) : Bytes :=
  let hdr := splice hdr H_TABLES_CSUM (sha.digest tables)
  let hdr := splice hdr H_HEADER_CSUM (List.replicate 32 0)
  splice hdr H_HEADER_CSUM (sha.digest hdr)

/-- The new slot, from the partition entries, their extents and the two copied tables. -/
def rebuild (sha : Sha256) (d : Bytes) (m : Metadata) (parts : List Bytes)
    (plan : List (List Bytes)) : Except ResizeError Bytes := do
  let parts ← reindex 0 (parts.zip plan)
  let newExts := plan.flatten
  let tables :=
    parts.flatten ++ newExts.flatten ++ tableBlob d m m.groups ++ tableBlob d m m.devices
  let hdr := pySlice d m.base (m.base + m.hdrSize)
  let hdr ← layTables 0
    [(H_PARTITIONS, parts.length, m.partitions.entrySize),
      (H_EXTENTS, newExts.length, m.extents.entrySize),
      (H_GROUPS, m.groups.numEntries, m.groups.entrySize),
      (H_DEVICES, m.devices.numEntries, m.devices.entrySize)] hdr
  let hdr ← packAt hdr H_TABLES_SIZE [(4, tables.length)]
  return checksums sha tables hdr ++ tables

/-- `patch_slot`, from the parsed metadata on. -/
def patchParsed (sha : Sha256) (d : Bytes) (m : Metadata) (target : Text) (newSizeBytes : ℤ) :
    Except ResizeError (Option Bytes) := do
  let parts := entries d m m.partitions
  let exts := entries d m m.extents
  let (firstLogical, devSectors) ← deviceSizeSectors d m
  let plan ← parts.mapM (planOf exts)
  match indexOf target parts with
  | none => .error (.die (.notFound target (parts.map partName)))
  | some idx =>
    let cur ← sectors (plan.getD idx [])
    let want := (newSizeBytes + SECTOR - 1) / (SECTOR : ℤ)
    if want ≤ cur then return none
    else
      let high ← highSector firstLogical plan
      let start := alignUp8 high
      let need := alignUp8 (want - cur).toNat
      if (need : ℤ) > (devSectors : ℤ) - start then
        .error (.die (.noRoom need ((devSectors : ℤ) - start)))
      else
        checkGroup parts (entries d m m.groups) plan (parts.getD idx []) need
        let newExt ← newExtent m.extents.entrySize need start
        return some (← rebuild sha d m parts (plan.modify idx (· ++ [newExt])))

/-- `patch_slot`; `none` when the slot has no header or the partition is large enough. -/
def patchSlot (sha : Sha256) (d : Bytes) (base : ℤ) (target : Text) (newSizeBytes : ℤ) :
    Except ResizeError (Option Bytes) := do
  match ← parseMetadata d base with
  | none => return none
  | some m => patchParsed sha d m target newSizeBytes

end LpResize

end PalmaEos
