import PalmaEos.LpUnpack

/-!
# `lpdump-from-super.py`

Printing the extents of every logical partition from the LP metadata in a dump of `super`, in the
form of `lpdump`. The script prints as it reads; here `partitions` is everything it reads for the
lines it prints, and `parse` are the lines that a run returning 0 prints.
-/

namespace PalmaEos

namespace LpDump

def GEOMETRY_OFFSET : ℕ := 4096
def GEOMETRY_SIZE : ℕ := 4096

/-- How `parse` fails: it returns 1 for the first two, and raises the last. -/
inductive DumpError
  /-- no LP geometry magic at 4096 -/
  | noGeometryMagic (got : ℕ)
  /-- bad metadata header magic -/
  | badHeaderMagic (got : ℕ) (base slot : ℤ)
  /-- `struct.error`: the buffer is too short. -/
  | struct
  deriving DecidableEq

/-- `struct.unpack_from` on `n` bytes at `off`. -/
def unpackFrom (d : Bytes) (off : ℤ) (n : ℕ) : Except DumpError Bytes :=
  match bufferAt d off n with
  | some b => .ok b
  | none => .error .struct

/-- What `table` returns: where a table starts, how many entries it has, and their size. -/
structure Table where
  start : ℤ
  num : ℕ
  size : ℕ
  deriving DecidableEq

/-- `table(off)`. -/
def table (d : Bytes) (base : ℤ) (hdrSize off : ℕ) : Except DumpError Table := do
  let b ← unpackFrom d (base + off) 12
  return ⟨base + hdrSize + leAt 4 b 0, leAt 4 b 4, leAt 4 b 8⟩

/-- An extent as far as it is read: `num_sectors`, `target_type` and `target_data`. -/
abbrev DumpedExtent := ℕ × ℕ × ℕ

/-- The extent at `eo`. -/
def extentAt (d : Bytes) (eo : ℤ) : Except DumpError DumpedExtent := do
  let b ← unpackFrom d eo 20
  return (leAt 8 b 0, leAt 4 b 8, leAt 8 b 12)

/-- The partition entry at `p`, with its extents. -/
def partitionAt (d : Bytes) (exts : Table) (p : ℤ) :
    Except DumpError (Text × List DumpedExtent) := do
  let name := Text.decode ((pySlice d p (p + 36)).takeWhile (· ≠ 0))
  let b ← unpackFrom d (p + 40) 8
  let es ← (List.range (leAt 4 b 4)).mapM fun k =>
    extentAt d (exts.start + ((leAt 4 b 0 + k) * exts.size : ℕ))
  return (name, es)

/-- What `parse` reads. -/
def partitions (d : Bytes) (slot : ℤ) : Except DumpError (List (Text × List DumpedExtent)) := do
  let magic ← unpackFrom d GEOMETRY_OFFSET 4
  if leAt 4 magic 0 ≠ 0x616C4467 then .error (.noGeometryMagic (leAt 4 magic 0))
  else
    let g ← unpackFrom d (GEOMETRY_OFFSET + 40 : ℕ) 8
    let base := (GEOMETRY_OFFSET + 2 * GEOMETRY_SIZE : ℕ) + slot * leAt 4 g 0
    let b ← unpackFrom d base 12
    if leAt 4 b 0 ≠ 0x414C5030 then .error (.badHeaderMagic (leAt 4 b 0) base slot)
    else
      let parts ← table d base (leAt 4 b 8) 0x50
      let exts ← table d base (leAt 4 b 8) 0x5C
      (List.range parts.num).mapM fun i => partitionAt d exts (parts.start + (i * parts.size : ℕ))

/-! ### Printing -/

/-- The line for a LINEAR extent: the first sector, the last sector and the physical sector. -/
def extentLine (first : ℕ) (last : ℤ) (targetData : ℕ) : Text :=
  "    ".toList ++ Text.ofNat first ++ " .. ".toList ++ Text.ofInt last ++
    " linear super ".toList ++ Text.ofNat targetData ++ ['\n']

/-- The lines for the extents of a partition, from `sector` on. Extents that are not LINEAR move the
sector only. -/
def extentLines (sector : ℕ) : List DumpedExtent → List Text
  | [] => []
  | (numSectors, targetType, targetData) :: es =>
    let rest := extentLines (sector + numSectors) es
    if targetType = 0 then
      extentLine sector ((sector + numSectors : ℕ) - 1) targetData :: rest
    else rest

/-- The heading of a partition. -/
def headingLine (name : Text) : Text := "  Name: ".toList ++ name ++ ['\n']

/-- The line between partitions. -/
def separatorLine : Text := "  ------------------------\n".toList

/-- The lines for a partition. -/
def partitionLines (p : Text × List DumpedExtent) : List Text :=
  headingLine p.1 :: (extentLines 0 p.2 ++ [separatorLine])

/-- `parse`: the lines that are printed. -/
def parse (d : Bytes) (slot : ℤ) : Except DumpError (List Text) := do
  return (← partitions d slot).flatMap partitionLines

end LpDump

end PalmaEos
