import PalmaEos.Lib.AddressSpace
import PalmaEos.Lib.Text

/-!
# Reading an lpdump listing

Both flashing scripts learn where a logical partition lives from the text that `lpdump` (or
`lpdump-from-super.py`) prints, and both have a function `extents_for` for it. The two were
written independently and differ in which lines they take for a partition heading and in where
they stop, so each has its own definition here; only the pattern for an extent line is common.

A listing is the list of lines that iterating over the open file yields. An extent is the pair
`(phys_sector_512, len_512)`; the length is an integer because `end - start + 1` is computed
without a check that `start ≤ end`.
-/

namespace PalmaEos

/-- One `(phys_sector_512, len_512)` pair of a listing. -/
abbrev ListedExtent := ℕ × ℤ

/-- `\s*(\d+)\s*\.\.\s*(\d+)\s+linear\s+super\s+(\d+)`, matched at the start of a line: the
groups `start`, `end` and `phys`. -/
def matchExtentLine (line : Text) : Option (ℕ × ℕ × ℕ) := do
  let (start, l) ← Text.number (Text.skipSpaces line)
  let l ← Text.literal "..".toList (Text.skipSpaces l)
  let (stop, l) ← Text.number (Text.skipSpaces l)
  let l ← Text.literal "linear".toList (← Text.spaces l)
  let l ← Text.literal "super".toList (← Text.spaces l)
  let (phys, _) ← Text.number (← Text.spaces l)
  return (start, stop, phys)

/-- The extent an extent line describes. -/
def lineExtent (line : Text) : Option ListedExtent :=
  (matchExtentLine line).map fun (start, stop, phys) => (phys, (stop : ℤ) - start + 1)

/-! ### `flash-logical-via-edl.py` -/

namespace FlashLogical

/-- `part` and then only whitespace up to the end of the line. -/
def closesLine (part l : Text) : Bool :=
  part.isPrefixOf l && (l.drop part.length).all Text.isSpace

/-- `\s+` and then `closesLine`. The escaped name may itself begin with whitespace, so every way
to end the repetition is tried. -/
def spacesThenPart (part : Text) : Text → Bool
  | [] => false
  | c :: l => Text.isSpace c && (closesLine part l || spacesThenPart part l)

/-- `re.search(rf"Name:\s+{re.escape(part)}\s*$", line)`. -/
def namesPartition (part line : Text) : Bool :=
  line.tails.any fun l => match Text.literal "Name:".toList l with
    | some l => spacesThenPart part l
    | none => false

/-- `line.strip().startswith("---")`. -/
def endsSection (line : Text) : Bool := "---".toList.isPrefixOf (Text.skipSpaces line)

/-- The loop of `extents_for`; `inside` says that the partition's heading has been seen. -/
def extentsFrom (part : Text) : Bool → List Text → List ListedExtent
  | _, [] => []
  | inside, line :: rest =>
    if namesPartition part line then extentsFrom part true rest
    else if ! inside then extentsFrom part false rest
    else if endsSection line then []
    else match lineExtent line with
      | some e => e :: extentsFrom part true rest
      | none => extentsFrom part true rest

/-- `extents_for` of `flash-logical-via-edl.py`. -/
def extentsFor (listing : List Text) (part : Text) : List ListedExtent :=
  extentsFrom part false listing

end FlashLogical

/-! ### `edl-delta-flash.py` -/

namespace DeltaFlash

/-- `re.match(r"\s*Name:\s*(\S+)", line)`, with its group. -/
def matchName (line : Text) : Option Text := do
  let l ← Text.literal "Name:".toList (Text.skipSpaces line)
  Text.word (Text.skipSpaces l)

/-- The loop of `extents_for`; `cur` is the name of the section the line is in. -/
def extentsFrom (part : Text) : Option Text → List Text → List ListedExtent
  | _, [] => []
  | cur, line :: rest =>
    match matchName line with
    | some name => extentsFrom part (some name) rest
    | none =>
      if cur ≠ some part then extentsFrom part cur rest
      else match lineExtent line with
        | some e => e :: extentsFrom part cur rest
        | none => extentsFrom part cur rest

/-- `extents_for` of `edl-delta-flash.py`. -/
def extentsFor (listing : List Text) (part : Text) : List ListedExtent :=
  extentsFrom part none listing

end DeltaFlash

/-! ### Listed extents as device ranges -/

/-- Byte offset of `super` on the device, from the GPT. -/
def SUPER_OFFSET : ℕ := 0x0b208000

/-- The device's logical block size. -/
def SECTOR : ℕ := 4096

/-- The partition's size in bytes, `sum(l for _, l in ext) * 512`. -/
def totalBytes (ext : List ListedExtent) : ℤ := (ext.map Prod.snd).sum * 512

/-- The device bytes a listing gives a partition, as a layout. -/
def deviceLayout (ext : List ListedExtent) : Layout :=
  ext.map fun e => (SUPER_OFFSET + e.1 * 512, (e.2 * 512).toNat)

@[simp] theorem deviceLayout_nil : deviceLayout [] = [] := rfl

@[simp] theorem deviceLayout_cons (e : ListedExtent) (ext : List ListedExtent) :
    deviceLayout (e :: ext)
      = (SUPER_OFFSET + e.1 * 512, (e.2 * 512).toNat) :: deviceLayout ext := rfl

/-- Every extent has a length, and starts and ends on a device sector. -/
def Aligned (ext : List ListedExtent) : Prop :=
  ∀ e ∈ ext, 0 ≤ e.2 ∧ SECTOR ∣ SUPER_OFFSET + e.1 * 512 ∧ (SECTOR : ℤ) ∣ e.2 * 512

theorem size_deviceLayout {ext : List ListedExtent} (h : Aligned ext) :
    ((deviceLayout ext).size : ℤ) = totalBytes ext := by
  induction ext with
  | nil => rfl
  | cons e ext ih =>
    have hrest := ih fun x hx => h x (List.mem_cons_of_mem _ hx)
    have hpos : 0 ≤ e.2 := (h e List.mem_cons_self).1
    rw [totalBytes] at hrest ⊢
    rw [deviceLayout_cons, Layout.size_cons, List.map_cons, List.sum_cons]
    push_cast
    omega

theorem aligned_deviceLayout {ext : List ListedExtent} (h : Aligned ext) :
    ∀ s ∈ deviceLayout ext, SECTOR ∣ s.1 ∧ SECTOR ∣ s.2 := by
  intro s hs
  obtain ⟨e, he, rfl⟩ := List.mem_map.mp hs
  obtain ⟨hpos, hstart, hlen⟩ := h e he
  refine ⟨hstart, Int.natCast_dvd_natCast.mp ?_⟩
  rwa [Int.toNat_of_nonneg (by omega)]

end PalmaEos
