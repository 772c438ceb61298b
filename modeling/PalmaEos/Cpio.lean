import PalmaEos.Lib.Newc
import PalmaEos.Lib.Text

/-!
# The ramdisk archives in the boot patchers

`patch-boot-overlayrc.py` and `patch-recovery-adb.py` share the code that writes a record and the
code that steps from one record to the next. The steps are in integers: `int(…, 16)` accepts signs,
so sizes may be negative and a walk may go back. Walks therefore take fuel; a run that has not ended
is `Fault.running`.

## Main results

* `memberAt_of_readRecord` — where there is a record, the scripts read it
-/

namespace PalmaEos

/-- Why a patcher refuses an image with exit code 1. -/
inductive Refusal
  /-- not an Android boot image -/
  | notBootImage
  /-- the image has a recovery_dtbo section -/
  | recoveryDtbo
  /-- the ramdisk would need more pages than it has -/
  | ramdiskGrows (pages had : ℕ)
  /-- the tail would move -/
  | tailMoves (len origEnd : ℕ)
  /-- the image size changed -/
  | sizeChanges
  deriving DecidableEq

/-- How a run ends other than by writing its output. -/
inductive Fault
  | refused (r : Refusal)
  /-- `struct.error` -/
  | struct
  /-- `ZeroDivisionError`, for a page size of zero -/
  | zeroDivision
  /-- What `gzip.decompress` raises. -/
  | gzip
  /-- `ValueError` of `int` -/
  | value
  /-- `AssertionError` -/
  | assertion
  /-- The run has not ended within the fuel. -/
  | running
  deriving DecidableEq

namespace Cpio

def CPIO_MAGIC : Bytes := Newc.MAGIC

def TRAILER : Text := "TRAILER!!!".toList

/-! ### Writing -/

/-- `b"\0" * ((4 - n % 4) % 4)` -/
def pad4 (n : ℕ) : Bytes := List.replicate ((4 - n % 4) % 4) 0

/-- `cpio_entry`. -/
def cpioEntry (name : Text) (data : Bytes) (mode : ℕ) : Bytes :=
  let nameB := Text.encode name ++ [0]
  let hdr := CPIO_MAGIC ++ Hex.format8 0 ++ Hex.format8 mode ++ Hex.format8 0 ++ Hex.format8 0 ++
    Hex.format8 1 ++ Hex.format8 0 ++ Hex.format8 data.length ++
    (List.replicate 4 (Hex.format8 0)).flatten ++ Hex.format8 nameB.length ++ Hex.format8 0
  let out := hdr ++ nameB
  out ++ pad4 out.length ++ data ++ pad4 data.length

/-- The last occurrence of `sub` that starts below `n`. -/
def rfindBelow (cpio sub : Bytes) : ℕ → Option ℕ
  | 0 => none
  | n + 1 => if window cpio n sub.length = sub then some n else rfindBelow cpio sub n

/-- `cpio.rfind(sub, 0, stop)`. -/
def rfind (cpio sub : Bytes) (stop : ℕ) : Option ℕ := rfindBelow cpio sub (stop + 1 - sub.length)

/-- `strip_trailer`. -/
def stripTrailer (cpio : Bytes) : Bytes :=
  match rfind cpio Newc.TRAILER cpio.length with
  | none => cpio
  | some i => match rfind cpio CPIO_MAGIC i with
    | some start => cpio.take start
    | none => cpio

/-! ### Reading -/

/-- What the walks make of the header at an offset. -/
structure Member where
  name : Text
  size : ℤ
  /-- Where the data starts. -/
  start : ℤ
  /-- Where the next record starts. -/
  next : ℤ

/-- The header at `off`; `none` is the `ValueError` of `int`. -/
def memberAt (cpio : Bytes) (off : ℤ) : Option Member := do
  let f (n : ℤ) := Hex.pyInt (pySlice cpio (off + 6 + n * 8) (off + 14 + n * 8))
  let fsz ← f 6
  let nsz ← f 11
  let d := off + 110 + nsz
  let d := d + (4 - d % 4) % 4
  let nxt := d + fsz
  return {
    name := Text.decode (pySlice cpio (off + 110) (off + 110 + nsz - 1))
    size := fsz
    start := d
    next := nxt + (4 - nxt % 4) % 4 }

/-- The loop of `read_member`, from `off` on. -/
def readMemberFrom (cpio : Bytes) (want : Text) : ℕ → ℤ → Except Fault (Option Bytes)
  | 0, _ => .error .running
  | fuel + 1, off =>
    if off + 110 ≤ cpio.length then
      if pySlice cpio off (off + 6) ≠ CPIO_MAGIC then .ok none
      else match memberAt cpio off with
        | none => .error .value
        | some m =>
          if m.name = TRAILER then .ok none
          else if m.name = want then .ok (some (pySlice cpio m.start (m.start + m.size)))
          else readMemberFrom cpio want fuel m.next
    else .ok none

/-- `read_member`. -/
def readMember (fuel : ℕ) (cpio : Bytes) (want : Text) : Except Fault (Option Bytes) :=
  readMemberFrom cpio want fuel 0

/-! ### The scripts and the format -/

/-- The trailer is recognised before or after its name is decoded. -/
theorem trailer_eq_decode {name : Bytes} : Text.decode name = TRAILER ↔ name = Newc.TRAILER := by
  rw [show TRAILER = Text.ascii Newc.TRAILER by decide]
  exact Text.decode_eq_ascii (Text.lt_of_all (by decide))

section Member

variable {cpio : Bytes} {off n : ℕ} {r : Newc.Rec}

theorem pySlice_drop (cpio : Bytes) (off : ℕ) {a b : ℕ} (hab : a ≤ b) :
    pySlice cpio ((off + a : ℕ) : ℤ) ((off + b : ℕ) : ℤ) = window (cpio.drop off) a (b - a) := by
  rw [pySlice_natCast, window, window, List.drop_drop, show off + b - (off + a) = b - a by omega]

/-- The integer alignment of the scripts is the alignment of the format. -/
theorem align_natCast (m : ℕ) : (m : ℤ) + (4 - (m : ℤ) % 4) % 4 = (Newc.align4 m : ℕ) := by
  rw [Newc.align4]
  omega

/-- A field of the header, as the scripts cut it out. -/
theorem pySlice_field (cpio : Bytes) (off i : ℕ) :
    pySlice cpio (off + 6 + (i : ℤ) * 8) (off + 14 + (i : ℤ) * 8)
      = window (cpio.drop off) (6 + i * 8) 8 := by
  have hslice := pySlice_drop cpio off (show 6 + i * 8 ≤ 14 + i * 8 by omega)
  rw [show 14 + i * 8 - (6 + i * 8) = 8 by omega] at hslice
  push_cast [← add_assoc] at hslice
  exact hslice

/-- **What the walks make of a header**, once its two sizes are read. -/
theorem memberAt_eq {fsz nsz : ℕ} (hoff : off % 4 = 0) (hpos : 0 < nsz)
    (hfsz : Hex.pyInt (window (cpio.drop off) (6 + 6 * 8) 8) = some (fsz : ℤ))
    (hnsz : Hex.pyInt (window (cpio.drop off) (6 + 11 * 8) 8) = some (nsz : ℤ)) :
    memberAt cpio off = some ⟨Text.decode (window (cpio.drop off) 110 (nsz - 1)), fsz,
      (off + Newc.dataOffset nsz : ℕ), (off + Newc.recordSize fsz nsz : ℕ)⟩ := by
  rw [← pySlice_field] at hfsz hnsz
  have hname : pySlice cpio (off + 110) (off + 110 + nsz - 1)
      = window (cpio.drop off) 110 (nsz - 1) := by
    have hslice := pySlice_drop cpio off (Nat.le_add_right 110 (nsz - 1))
    rwa [show ((off + (110 + (nsz - 1)) : ℕ) : ℤ) = off + 110 + nsz - 1 by omega,
      Nat.add_sub_cancel_left] at hslice
  have hstart : (off : ℤ) + 110 + nsz + (4 - ((off : ℤ) + 110 + nsz) % 4) % 4
      = (off + Newc.dataOffset nsz : ℕ) := by
    rw [Newc.dataOffset, ← Newc.align4_add hoff, ← align_natCast]
    push_cast
    ring_nf
  have hnext : ((off + Newc.dataOffset nsz : ℕ) : ℤ) + fsz
        + (4 - (((off + Newc.dataOffset nsz : ℕ) : ℤ) + fsz) % 4) % 4
      = (off + Newc.recordSize fsz nsz : ℕ) := by
    rw [Newc.recordSize, ← Newc.align4_add hoff, ← align_natCast]
    push_cast
    ring_nf
  rw [memberAt]
  simp only [Nat.cast_ofNat] at hfsz hnsz
  simp only [hfsz, hnsz, Option.bind_eq_bind, Option.bind_some, hname, hstart, hnext]
  rfl

/-- A field of a record is read as the format says. -/
theorem pyInt_field {bs : Bytes} (h : Newc.StartsRecord bs) {i : ℕ} (hi : i < 13) :
    Hex.pyInt (window bs (6 + i * 8) 8) = some (Newc.field bs i : ℤ) := by
  obtain ⟨hlen, -, hhex, -⟩ := h
  obtain ⟨hhead, hdata⟩ := Newc.header_le_recordSize (Newc.field bs 6) (Newc.field bs 11)
  refine Hex.pyInt_of_isHex ?_ fun b hb => ?_
  · refine List.ne_nil_of_length_pos ?_
    rw [length_window_of_le (by omega)]
    decide
  · have hwin : window (window bs 6 104) (i * 8) 8 = window bs (6 + i * 8) 8 :=
      window_window (by omega)
    rw [← hwin] at hb
    exact hhex b (List.mem_of_mem_drop (List.mem_of_mem_take hb))

theorem pySlice_magic (cpio : Bytes) (off : ℕ) :
    pySlice cpio off (off + 6) = window (cpio.drop off) 0 6 := by
  have hslice := pySlice_drop cpio off (Nat.zero_le 6)
  push_cast at hslice
  rwa [add_zero] at hslice

/-- **Where there is a record, the scripts read it**: its magic, its name and its data, and where
the next one starts. -/
theorem memberAt_of_readRecord (h : Newc.readRecord (cpio.drop off) = some (r, n))
    (hoff : off % 4 = 0) :
    off + 110 ≤ cpio.length ∧ pySlice cpio off (off + 6) = CPIO_MAGIC ∧
      ∃ m, memberAt cpio off = some m ∧ m.name = Text.decode r.name ∧ m.next = (off + n : ℕ) ∧
        pySlice cpio m.start (m.start + m.size) = r.data := by
  obtain ⟨hpos, -, hle⟩ := Newc.size_of_readRecord h
  obtain ⟨hstart, hr, rfl⟩ := Newc.readRecord_eq_some.mp h
  have hm := memberAt_eq hoff hstart.2.2.2.1 (pyInt_field hstart (show 6 < 13 by decide))
    (pyInt_field hstart (show 11 < 13 by decide))
  have hmagic := hstart.2.1
  rw [List.length_drop] at hle
  refine ⟨by omega, (pySlice_magic cpio off).trans hmagic, _, hm, by rw [hr], rfl, ?_⟩
  have hslice := pySlice_drop cpio off (Nat.le_add_right
    (Newc.dataOffset (Newc.field (cpio.drop off) 11)) (Newc.field (cpio.drop off) 6))
  rw [Nat.add_sub_cancel_left, ← Nat.add_assoc] at hslice
  push_cast at hslice ⊢
  rw [hslice, hr]

/-- Where a ramdisk goes on without a record, the scripts find no magic. -/
theorem pySlice_ne_magic {rs : List Newc.Rec} (h : Newc.Loads (cpio.drop off) rs)
    (hread : Newc.readRecord (cpio.drop off) = none) :
    pySlice cpio off (off + 6) ≠ CPIO_MAGIC := by
  rw [pySlice_magic]
  rcases h.head_eq_zero hread with heq | ⟨bs, heq⟩
  · rw [heq]
    exact (List.cons_ne_nil _ _).symm
  · rw [heq]
    intro hmagic
    exact absurd (List.cons.inj hmagic).1 (by decide)

end Member

end Cpio

end PalmaEos
