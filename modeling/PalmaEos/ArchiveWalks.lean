import Mathlib.Data.Int.Interval
import PalmaEos.Lib.Chain
import PalmaEos.BootPatchers

/-!
# How the walks over an archive end

`read_member` and the loop of `patch-boot-overlayrc.py` step from one record of a ramdisk to the
next, by two sizes out of its header. `int(…, 16)` takes a sign, so the two sizes can make a record
of no bytes, or of fewer: then the next record is the same one, or one before it. Where every record
that is passed has bytes the walks go forward, and end.

## Main results

* `walksEnd_of_advancing` — the sizes that let the walks end, and those that do not
* `walksEnd_of_unsigned` — no record that is passed has a minus sign in a size
-/

namespace PalmaEos

open StateTransition (Reaches)

namespace Cpio

/-- Where a walk goes from the offset `off` when it goes on: past a record whose name is not one of
`stop`. -/
def nextOffset (cpio : Bytes) (stop : List Text) (off : ℤ) : Option ℤ :=
  if off + 110 ≤ cpio.length ∧ pySlice cpio off (off + 6) = CPIO_MAGIC then
    (memberAt cpio off).bind fun m => if stop.contains m.name then none else some m.next
  else none

/-- Number `n` of the header at `off`, as it stands there. -/
def fieldText (cpio : Bytes) (off n : ℤ) : Bytes :=
  pySlice cpio (off + 6 + n * 8) (off + 14 + n * 8)

/-- The name of a record, which has `nsz` bytes with its closing zero. -/
def nameText (cpio : Bytes) (off nsz : ℤ) : Text :=
  Text.decode (pySlice cpio (off + 110) (off + 110 + nsz - 1))

/-- There is a header at `off`: a magic with room for all numbers, a file size of `fsz` and a name
size of `nsz`. -/
structure HeaderAt (cpio : Bytes) (off fsz nsz : ℤ) : Prop where
  room : off + 110 ≤ cpio.length
  magic : pySlice cpio off (off + 6) = CPIO_MAGIC
  fileSize : Hex.pyInt (fieldText cpio off 6) = some fsz
  nameSize : Hex.pyInt (fieldText cpio off 11) = some nsz

/-- There is a record at `off` that is not a trailer. -/
structure RecordAt (cpio : Bytes) (off fsz nsz : ℤ) : Prop extends HeaderAt cpio off fsz nsz where
  name : nameText cpio off nsz ≠ TRAILER

/-- `x`, rounded up to a multiple of four. -/
def roundUp4 (x : ℤ) : ℤ := x + (4 - x % 4) % 4

/-- The bytes of a record with these sizes: header and name, and the data, each padded. -/
def recordLength (fsz nsz : ℤ) : ℤ := roundUp4 (roundUp4 (110 + nsz) + fsz)

/-- The records from the start of the ramdisk on, each behind the one before it. -/
inductive Passed (cpio : Bytes) : ℤ → Prop
  | start : Passed cpio 0
  | next {off fsz nsz : ℤ} : Passed cpio off → RecordAt cpio off fsz nsz →
      Passed cpio (off + recordLength fsz nsz)

section Steps

variable {cpio : Bytes} {stop : List Text} {off off' : ℤ}

theorem nextOffset_eq_some : nextOffset cpio stop off = some off' ↔
    off + 110 ≤ cpio.length ∧ pySlice cpio off (off + 6) = CPIO_MAGIC ∧
      ∃ m, memberAt cpio off = some m ∧ m.name ∉ stop ∧ m.next = off' := by
  rw [nextOffset, Option.ite_none_right_eq_some, Option.bind_eq_some_iff, and_assoc]
  simp only [List.contains_iff_mem, Option.ite_none_left_eq_some, Option.some.injEq]

/-- There are finitely many offsets from which a walk goes on. -/
theorem finite_nextOffset (cpio : Bytes) (stop : List Text) :
    {off | (nextOffset cpio stop off).isSome}.Finite := by
  refine (Set.finite_Icc (-(cpio.length : ℤ) - 6) cpio.length).subset ?_
  intro off hoff
  obtain ⟨off', hnext⟩ := Option.isSome_iff_exists.mp hoff
  obtain ⟨hroom, hmagic, -⟩ := nextOffset_eq_some.mp hnext
  refine ⟨?_, by omega⟩
  by_contra hbelow
  -- both bounds of the slice are clamped to the start
  have hend : sliceBound cpio.length (off + 6) = 0 := by
    rw [sliceBound, if_pos (by omega)]
    omega
  have hempty : pySlice cpio off (off + 6) = [] := by
    rw [pySlice, hend, List.take_zero, List.drop_nil]
  rw [hempty] at hmagic
  cases hmagic

theorem nextOffset_mono {stop' : List Text} (h : stop' ⊆ stop) {off off' : ℤ}
    (hnext : nextOffset cpio stop off = some off') : nextOffset cpio stop' off = some off' := by
  obtain ⟨hroom, hmagic, m, hm, hname, hoff'⟩ := nextOffset_eq_some.mp hnext
  exact nextOffset_eq_some.mpr ⟨hroom, hmagic, m, hm, fun hin => hname (h hin), hoff'⟩

theorem roundUp4_add {a : ℤ} (ha : a % 4 = 0) (x : ℤ) : roundUp4 (a + x) = a + roundUp4 x := by
  rw [roundUp4, roundUp4]
  omega

/-- From a multiple of four, a record leads to where its bytes end. -/
theorem nextOffset_eq_some_of_aligned (hoff : off % 4 = 0) :
    nextOffset cpio [TRAILER] off = some off' ↔
      ∃ fsz nsz, RecordAt cpio off fsz nsz ∧ off' = off + recordLength fsz nsz := by
  have hlength : ∀ fsz nsz, off + recordLength fsz nsz
      = roundUp4 (roundUp4 (off + 110 + nsz) + fsz) := by
    intro fsz nsz
    rw [Int.add_assoc off 110 nsz, roundUp4_add hoff, Int.add_assoc, roundUp4_add hoff,
      recordLength]
  rw [nextOffset_eq_some]
  constructor
  · rintro ⟨hroom, hmagic, m, hm, hname, rfl⟩
    rw [memberAt] at hm
    simp only [Option.bind_eq_bind, Option.bind_eq_some_iff] at hm
    obtain ⟨fsz, hfsz, nsz, hnsz, hm⟩ := hm
    obtain rfl := Option.some.inj hm
    exact ⟨fsz, nsz, ⟨⟨hroom, hmagic, hfsz, hnsz⟩, by simpa [nameText] using hname⟩,
      (hlength fsz nsz).symm⟩
  · rintro ⟨fsz, nsz, h, rfl⟩
    have hfsz : Hex.pyInt (pySlice cpio (off + 6 + 6 * 8) (off + 14 + 6 * 8)) = some fsz :=
      h.fileSize
    have hnsz : Hex.pyInt (pySlice cpio (off + 6 + 11 * 8) (off + 14 + 11 * 8)) = some nsz :=
      h.nameSize
    refine ⟨h.room, h.magic, ?_⟩
    rw [memberAt]
    simp only [hfsz, hnsz, Option.bind_eq_bind, Option.bind_some]
    refine ⟨_, rfl, by simpa [nameText] using h.name, ?_⟩
    rw [hlength]
    rfl

theorem Passed.aligned (h : Passed cpio off) : off % 4 = 0 := by
  induction h with
  | start => rfl
  | next _ _ ih =>
    rw [recordLength, roundUp4]
    omega

/-- The walk over the records is the chain of the records. -/
theorem reaches_iff_passed : Reaches (nextOffset cpio [TRAILER]) 0 off ↔ Passed cpio off := by
  constructor
  · intro h
    induction h with
    | refl => exact .start
    | tail _ hstep ih =>
      obtain ⟨fsz, nsz, hrec, rfl⟩ := (nextOffset_eq_some_of_aligned ih.aligned).mp hstep
      exact ih.next hrec
  · intro h
    induction h with
    | start => exact .refl
    | next hpassed hrec ih =>
      exact ih.tail ((nextOffset_eq_some_of_aligned hpassed.aligned).mpr ⟨_, _, hrec, rfl⟩)

/-- Sizes without a minus sign make a record of some bytes. -/
theorem recordLength_pos_of_unsigned {fsz nsz : ℤ} (h : RecordAt cpio off fsz nsz)
    (hsize : 0x2D ∉ fieldText cpio off 6) (hname : 0x2D ∉ fieldText cpio off 11) :
    0 < recordLength fsz nsz := by
  have hfsz := Hex.pyInt_nonneg hsize h.fileSize
  have hnsz := Hex.pyInt_nonneg hname h.nameSize
  rw [recordLength, roundUp4, roundUp4]
  omega

end Steps

/-! ### The two walks -/

/-- `read_member` follows the records up to the trailer and the wanted name. -/
theorem readMember_ends_iff (cpio : Bytes) (want : Text) :
    (∃ fuel, readMember fuel cpio want ≠ .error .running)
      ↔ ¬ Chain.ComesBack (nextOffset cpio [TRAILER, want]) 0 := by
  rw [← Chain.stops_iff_not_comesBack (finite_nextOffset _ _)]
  refine Chain.exists_fuel_iff (fun n off (_ : Unit) => readMemberFrom cpio want n off)
    (fun _ _ => rfl) ?_ ?_ ()
  · intro n off _ hnone hrunning
    rw [readMemberFrom] at hrunning
    split_ifs at hrunning with hroom hmagic
    rw [nextOffset, if_pos ⟨hroom, not_not.mp hmagic⟩] at hnone
    rcases hm : memberAt cpio off with _ | m
    · rw [hm] at hrunning
      cases hrunning
    · rw [hm] at hrunning hnone
      dsimp only at hrunning
      split_ifs at hrunning with htrailer hwant
      rw [Option.bind_some, if_neg (by simp [htrailer, hwant])] at hnone
      cases hnone
  · intro off off' _ hnext
    obtain ⟨hroom, hmagic, m, hm, hname, rfl⟩ := nextOffset_eq_some.mp hnext
    simp only [List.mem_cons, List.not_mem_nil, or_false, not_or] at hname
    refine ⟨(), fun n => ?_⟩
    rw [readMemberFrom, if_pos hroom, if_neg (not_not.mpr hmagic), hm]
    dsimp only
    rw [if_neg hname.1, if_neg hname.2]

/-- The loop of `patch-boot-overlayrc.py` follows the records up to the trailer. -/
theorem walk_ends_iff (cpio kept : Bytes) :
    (∃ fuel, OverlayRc.walk cpio fuel 0 kept ≠ .error .running)
      ↔ ¬ Chain.ComesBack (nextOffset cpio [TRAILER]) 0 := by
  rw [← Chain.stops_iff_not_comesBack (finite_nextOffset _ _)]
  refine Chain.exists_fuel_iff (OverlayRc.walk cpio) (fun _ _ => rfl) ?_ ?_ kept
  · intro n off kept hnone hrunning
    rw [OverlayRc.walk] at hrunning
    split_ifs at hrunning with hroom hmagic
    rw [nextOffset, if_pos ⟨hroom, not_not.mp hmagic⟩] at hnone
    rcases hm : memberAt cpio off with _ | m
    · rw [hm] at hrunning
      cases hrunning
    · rw [hm] at hrunning hnone
      dsimp only at hrunning
      by_cases htrailer : m.name = TRAILER
      · rw [if_pos htrailer] at hrunning
        cases hrunning
      · rw [Option.bind_some, if_neg (by simp [htrailer])] at hnone
        cases hnone
  · intro off off' kept hnext
    obtain ⟨hroom, hmagic, m, hm, hname, rfl⟩ := nextOffset_eq_some.mp hnext
    refine ⟨if m.name ∈ OverlayRc.DROP then kept else kept ++ pySlice cpio off m.next, fun n => ?_⟩
    rw [OverlayRc.walk, if_pos hroom, if_neg (not_not.mpr hmagic), hm]
    dsimp only
    rw [if_neg (by simpa using hname)]
    split_ifs <;> rfl

/-- `read_member`, for any wanted name, and the loop of `patch-boot-overlayrc.py` end. -/
def WalksEnd (cpio : Bytes) : Prop :=
  (∀ want, ∃ fuel, readMember fuel cpio want ≠ .error .running) ∧
    ∃ fuel, OverlayRc.walk cpio fuel 0 [] ≠ .error .running

/-- `read_member` stops no later than the loop over the records. -/
theorem walksEnd_of_not_comesBack {cpio : Bytes}
    (h : ¬ Chain.ComesBack (nextOffset cpio [TRAILER]) 0) : WalksEnd cpio := by
  refine ⟨fun want => (readMember_ends_iff cpio want).mpr fun hback => h ?_,
    (walk_ends_iff cpio []).mpr h⟩
  exact hback.mono fun _ _ hnext => nextOffset_mono (by simp) hnext

/-- Where no record leads back, the walks end. -/
theorem walksEnd_of_pos {cpio : Bytes} (h : ∀ off fsz nsz, Passed cpio off →
    RecordAt cpio off fsz nsz → 0 < recordLength fsz nsz) : WalksEnd cpio := by
  refine walksEnd_of_not_comesBack (Chain.not_comesBack_of_lt ?_)
  intro off off' hreach hnext
  have hpassed := reaches_iff_passed.mp hreach
  obtain ⟨fsz, nsz, hrec, rfl⟩ := (nextOffset_eq_some_of_aligned hpassed.aligned).mp hnext
  have := h off fsz nsz hpassed hrec
  omega

/-- **The sizes of the records decide.** For every byte string, `read_member` for any name and the
loop of `patch-boot-overlayrc.py` end, by returning or by raising, where the two sizes of every
record that is passed make a record of some bytes. They do not end where a record has none. -/
theorem walksEnd_of_advancing (cpio : Bytes) :
    ((∀ off fsz nsz, Passed cpio off → RecordAt cpio off fsz nsz → 0 < recordLength fsz nsz) →
        WalksEnd cpio) ∧
      ((∃ off fsz nsz, Passed cpio off ∧ RecordAt cpio off fsz nsz ∧ recordLength fsz nsz = 0) →
        ¬ WalksEnd cpio) := by
  refine ⟨walksEnd_of_pos, ?_⟩
  rintro ⟨off, fsz, nsz, hpassed, hrec, hzero⟩ hends
  refine (walk_ends_iff cpio []).mp hends.2 ⟨off, reaches_iff_passed.mpr hpassed, .single ?_⟩
  exact (nextOffset_eq_some_of_aligned hpassed.aligned).mpr
    ⟨fsz, nsz, hrec, by rw [hzero, Int.add_zero]⟩

/-- The walks end where no record that is passed has a minus sign in one of its two sizes: blanks, a
plus sign, `0x` and underscores do no harm. -/
theorem walksEnd_of_unsigned {cpio : Bytes} (h : ∀ off, Passed cpio off →
    0x2D ∉ fieldText cpio off 6 ∧ 0x2D ∉ fieldText cpio off 11) : WalksEnd cpio :=
  walksEnd_of_pos fun off _ _ hpassed hrec =>
    recordLength_pos_of_unsigned hrec (h off hpassed).1 (h off hpassed).2

/-! ### Two archives -/

/-- A header with these texts for its two sizes, and the name `a`. -/
def sizedHeader (fileSize nameSize : String) : Bytes :=
  CPIO_MAGIC ++ (List.replicate 6 (Hex.format8 0)).flatten ++ Text.encode fileSize.toList ++
    (List.replicate 4 (Hex.format8 0)).flatten ++ Text.encode nameSize.toList ++ Hex.format8 0 ++
    Text.encode "a".toList ++ [0]

/-- A file of four bytes, with its sizes in the ways that `int` takes, and a trailer. -/
def spacedArchive : Bytes :=
  sizedHeader " +0x_4  " "    0_2 " ++ Text.encode "data".toList ++ cpioEntry TRAILER [] 0

/-- A file of -112 bytes: its record ends where it begins. -/
def loopingArchive : Bytes := sizedHeader "-0000070" "00000002"

theorem passed_spaced {off : ℤ} (h : Passed spacedArchive off) : off = 0 ∨ off = 116 := by
  induction h with
  | start => exact Or.inl rfl
  | @next off fsz nsz _ hrec ih =>
    right
    rcases ih with rfl | rfl
    · have hfsz : Hex.pyInt (fieldText spacedArchive 0 6) = some 4 := by decide +kernel
      have hnsz : Hex.pyInt (fieldText spacedArchive 0 11) = some 2 := by decide +kernel
      obtain rfl := Option.some.inj (hrec.fileSize.symm.trans hfsz)
      obtain rfl := Option.some.inj (hrec.nameSize.symm.trans hnsz)
      rfl
    · have hnsz : Hex.pyInt (fieldText spacedArchive 116 11) = some 11 := by decide +kernel
      obtain rfl := Option.some.inj (hrec.nameSize.symm.trans hnsz)
      exact absurd (by decide +kernel) hrec.name

theorem recordAt_looping : RecordAt loopingArchive 0 (-112) 2 where
  room := by decide +kernel
  magic := by decide +kernel
  fileSize := by decide +kernel
  nameSize := by decide +kernel
  name := by decide +kernel

theorem walksEnd_of_advancing_spaced : WalksEnd spacedArchive ∧ ¬ WalksEnd loopingArchive := by
  refine ⟨(walksEnd_of_advancing spacedArchive).1 fun off fsz nsz hpassed hrec => ?_,
    (walksEnd_of_advancing loopingArchive).2 ⟨0, -112, 2, .start, recordAt_looping, rfl⟩⟩
  refine recordLength_pos_of_unsigned hrec ?_ ?_
  · rcases passed_spaced hpassed with rfl | rfl
    all_goals decide +kernel
  · rcases passed_spaced hpassed with rfl | rfl
    all_goals decide +kernel

/-- The record is followed by itself. -/
theorem not_walksEnd_looping : ¬ WalksEnd loopingArchive := by
  intro h
  refine (walk_ends_iff loopingArchive []).mp h.2 ⟨0, .refl, .single ?_⟩
  rw [Option.mem_def]
  decide +kernel

end Cpio

end PalmaEos
