import Mathlib.Data.Nat.Digits.Lemmas
import PalmaEos.Lib.Bytes

/-!
# Hexadecimal numbers in ASCII

Numbers written as hexadecimal digits, in three readings: the strict one of binary formats with
textual headers (`value`, on digits only), Python's `int(b, 16)` (`pyInt`), which also takes blanks
around the number, a sign, a `0x` and underscores between digits, and Python's `"%08X" % n`
(`format8`), which writes at least eight digits.

## Main results

* `pyInt_of_isHex` — on digits, `int(b, 16)` is the strict reading
* `value_format8` — numbers are read back
-/

namespace PalmaEos

namespace Hex

/-- The value of a digit, in either case. -/
def digit (b : UInt8) : Option ℕ :=
  if 0x30 ≤ b ∧ b ≤ 0x39 then some (b.toNat - 0x30)
  else if 0x41 ≤ b ∧ b ≤ 0x46 then some (b.toNat - 0x37)
  else if 0x61 ≤ b ∧ b ≤ 0x66 then some (b.toNat - 0x57)
  else none

/-- The number that digits spell on top of `acc`. -/
def valueFrom (acc : ℕ) (l : Bytes) : ℕ := l.foldl (fun n b => 16 * n + (digit b).getD 0) acc

/-- The number that digits spell. -/
def value (l : Bytes) : ℕ := valueFrom 0 l

/-- There are only digits. -/
def IsHex (l : Bytes) : Prop := ∀ b ∈ l, (digit b).isSome

instance (l : Bytes) : Decidable (IsHex l) := inferInstanceAs (Decidable (∀ b ∈ l, _))

/-! ### Python's `int(b, 16)` -/

/-- The blanks that `int` strips. -/
def isSpace (b : UInt8) : Bool := b ∈ ([0x20, 0x09, 0x0A, 0x0B, 0x0C, 0x0D] : Bytes)

/-- The digits behind a digit, with single underscores between them, on top of `acc`. -/
def scan (acc : ℕ) : Bytes → Option (ℕ × Bytes)
  | [] => some (acc, [])
  | b :: l => match digit b with
    | some v => scan (16 * acc + v) l
    | none =>
      if b = 0x5F then match l with
        | [] => none
        | c :: l => match digit c with
          | some v => scan (16 * acc + v) l
          | none => none
      else some (acc, b :: l)

/-- What is left behind `0x` and one underscore. -/
def skipPrefix (s : Bytes) : Bytes :=
  if s[0]? = some 0x30 ∧ (s[1]? = some 0x78 ∨ s[1]? = some 0x58) then
    if s[2]? = some 0x5F then s.drop 3 else s.drop 2
  else s

/-- An unsigned number, followed by blanks only. -/
def unsigned (s : Bytes) : Option ℕ :=
  match skipPrefix s with
  | [] => none
  | c :: l => (digit c).bind fun v => (scan v l).bind fun (n, rest) =>
    if rest.all isSpace then some n else none

/-- `int(b, 16)`; `none` is a `ValueError`. -/
def pyInt (b : Bytes) : Option ℤ :=
  let s := b.dropWhile isSpace
  if s[0]? = some 0x2D then (unsigned (s.drop 1)).map fun n => -(n : ℤ)
  else if s[0]? = some 0x2B then (unsigned (s.drop 1)).map Int.ofNat
  else (unsigned s).map Int.ofNat

/-! ### Python's `"%08X" % n` -/

/-- The digit of a value below 16. -/
def upperDigit (v : ℕ) : UInt8 := UInt8.ofNat (if v < 10 then 0x30 + v else 0x37 + v)

/-- `b"%08X" % n`. -/
def format8 (n : ℕ) : Bytes :=
  let ds := (Nat.digits 16 n).reverse.map upperDigit
  List.replicate (8 - ds.length) 0x30 ++ ds

/-! ### Reading digits -/

/-- A digit is none of the other characters that `int` knows. -/
theorem ne_of_digit {b : UInt8} (h : (digit b).isSome) :
    isSpace b = false ∧ b ≠ 0x2D ∧ b ≠ 0x2B ∧ b ≠ 0x78 ∧ b ≠ 0x58 := by
  refine ⟨?_, ?_, ?_, ?_, ?_⟩
  · rw [isSpace, decide_eq_false_iff_not]
    intro hb
    simp only [List.mem_cons, List.not_mem_nil, or_false] at hb
    rcases hb with rfl | rfl | rfl | rfl | rfl | rfl <;> exact absurd h (by decide)
  all_goals
    rintro rfl
    exact absurd h (by decide)

theorem scan_of_isHex {l : Bytes} (h : IsHex l) (acc : ℕ) :
    scan acc l = some (valueFrom acc l, []) := by
  induction l generalizing acc with
  | nil => rfl
  | cons b l ih =>
    obtain ⟨v, hv⟩ := Option.isSome_iff_exists.mp (h b (List.mem_cons_self ..))
    rw [scan.eq_def]
    simp only [hv]
    rw [ih (fun c hc => h c (List.mem_cons_of_mem _ hc)), valueFrom, valueFrom, List.foldl_cons, hv]
    rfl

/-- **On digits, `int(b, 16)` is the strict reading.** -/
theorem pyInt_of_isHex {b : Bytes} (hne : b ≠ []) (h : IsHex b) : pyInt b = some (value b : ℤ) := by
  obtain ⟨c, l, rfl⟩ := List.exists_cons_of_ne_nil hne
  have hc := h c (List.mem_cons_self ..)
  obtain ⟨v, hv⟩ := Option.isSome_iff_exists.mp hc
  obtain ⟨hspace, hminus, hplus, -, -⟩ := ne_of_digit hc
  have hl : IsHex l := fun d hd => h d (List.mem_cons_of_mem _ hd)
  have hskip : skipPrefix (c :: l) = c :: l := by
    rw [skipPrefix, if_neg]
    rintro ⟨-, hx⟩
    rcases l with _ | ⟨d, l⟩
    · simp at hx
    · obtain ⟨-, -, -, hlower, hupper⟩ := ne_of_digit (hl d (List.mem_cons_self ..))
      simp [hlower, hupper] at hx
  have hunsigned : unsigned (c :: l) = some (value (c :: l)) := by
    rw [unsigned, hskip]
    simp only [hv, Option.bind_some, scan_of_isHex hl, List.all_nil, if_true]
    rw [value, valueFrom, valueFrom, List.foldl_cons, hv]
    simp
  rw [pyInt, List.dropWhile_cons_of_neg (by simp [hspace])]
  simp [hminus, hplus, hunsigned]

/-- Without a minus sign, a number is not negative. -/
theorem pyInt_nonneg {b : Bytes} {v : ℤ} (h : 0x2D ∉ b) (hv : pyInt b = some v) : 0 ≤ v := by
  have hfirst : ¬ (b.dropWhile isSpace)[0]? = some 0x2D := fun hfirst =>
    h ((List.dropWhile_sublist _).subset (List.mem_of_getElem? hfirst))
  rw [pyInt, if_neg hfirst] at hv
  split_ifs at hv
  all_goals
    obtain ⟨n, -, rfl⟩ := Option.map_eq_some_iff.mp hv
    exact Int.natCast_nonneg n

/-! ### Reading what was written -/

theorem digit_upperDigit {v : ℕ} (h : v < 16) : digit (upperDigit v) = some v := by
  revert v
  decide

/-- A number below `16 ^ 8` has eight digits. -/
theorem length_format8 {n : ℕ} (h : n < 16 ^ 8) : (format8 n).length = 8 := by
  have hdigits := (Nat.digits_length_le_iff (by decide) n).mpr h
  rw [format8, List.length_append, List.length_replicate, List.length_map, List.length_reverse]
  omega

theorem isHex_format8 (n : ℕ) : IsHex (format8 n) := by
  intro b hb
  rw [format8, List.mem_append] at hb
  rcases hb with hb | hb
  · rw [List.eq_of_mem_replicate hb]
    rfl
  · obtain ⟨d, hd, rfl⟩ := List.mem_map.mp hb
    rw [digit_upperDigit (Nat.digits_lt_base (by decide) (List.mem_reverse.mp hd))]
    rfl

theorem valueFrom_append (acc : ℕ) (l l' : Bytes) :
    valueFrom acc (l ++ l') = valueFrom (valueFrom acc l) l' := List.foldl_append

/-- **Numbers are read back.** -/
theorem value_format8 (n : ℕ) : value (format8 n) = n := by
  have hzeros : ∀ k, valueFrom 0 (List.replicate k 0x30) = 0 := by
    intro k
    induction k with
    | zero => rfl
    | succ k ih => exact ih
  have hdigits : ∀ ds : List ℕ, (∀ d ∈ ds, d < 16) →
      valueFrom 0 (ds.reverse.map upperDigit) = Nat.ofDigits 16 ds := by
    intro ds hds
    induction ds with
    | nil => rfl
    | cons d ds ih =>
      rw [List.forall_mem_cons] at hds
      rw [List.reverse_cons, List.map_append, valueFrom_append, ih hds.2, Nat.ofDigits_cons]
      simp [valueFrom, digit_upperDigit hds.1, Nat.add_comm]
  have hvalue := hdigits (Nat.digits 16 n) fun d hd => Nat.digits_lt_base (by decide) hd
  rw [Nat.ofDigits_digits] at hvalue
  rw [value, format8, valueFrom_append, hzeros, hvalue]

end Hex

end PalmaEos
