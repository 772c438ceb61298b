import Mathlib.Data.List.Basic
import PalmaEos.Lib.Bytes

/-!
# Python text

Python's `str` as a list of code points, with the parts of the standard library that readers of
text formats are written in: the whitespace and decimal-digit classes of `re`, UTF-8 decoding
with `errors="replace"`, `str.splitlines`, and the scanners that a regular expression without
ambiguous repetition amounts to.

`decode_encode` says that decoding undoes encoding, and `decode_eq_ascii` that names in ASCII can be
compared before or after decoding.

## Scanners for regular expressions

A pattern such as `\s*(\d+)\s*\.\.` is a sequence of greedy repetitions, each over a class
disjoint from what follows it. Giving a character back can then never help the match, so greedy
scanning from left to right is the whole semantics and no backtracking is modelled.
-/

namespace PalmaEos

/-- A Python `str`. -/
abbrev Text := List Char

namespace Text

/-! ### Character classes -/

/-- The code points of `str.isspace`, which are also those of `\s`. -/
def spaceCodes : List ℕ :=
  [0x09, 0x0A, 0x0B, 0x0C, 0x0D, 0x1C, 0x1D, 0x1E, 0x1F, 0x20, 0x85, 0xA0, 0x1680, 0x2000, 0x2001,
    0x2002, 0x2003, 0x2004, 0x2005, 0x2006, 0x2007, 0x2008, 0x2009, 0x200A, 0x2028, 0x2029,
    0x202F, 0x205F, 0x3000]

def isSpace (c : Char) : Bool := c.toNat ∈ spaceCodes

/-- The code points of the digit zero in every script. Each starts a row of ten, and the rows
together are `\d`, which is `str.isdecimal`. -/
def zeroCodes : List ℕ :=
  [0x30, 0x660, 0x6F0, 0x7C0, 0x966, 0x9E6, 0xA66, 0xAE6, 0xB66, 0xBE6, 0xC66, 0xCE6, 0xD66,
    0xDE6, 0xE50, 0xED0, 0xF20, 0x1040, 0x1090, 0x17E0, 0x1810, 0x1946, 0x19D0, 0x1A80, 0x1A90,
    0x1B50, 0x1BB0, 0x1C40, 0x1C50, 0xA620, 0xA8D0, 0xA900, 0xA9D0, 0xA9F0, 0xAA50, 0xABF0,
    0xFF10, 0x104A0, 0x10D30, 0x11066, 0x110F0, 0x11136, 0x111D0, 0x112F0, 0x11450, 0x114D0,
    0x11650, 0x116C0, 0x11730, 0x118E0, 0x11950, 0x11C50, 0x11D50, 0x11DA0, 0x16A60, 0x16AC0,
    0x16B50, 0x1D7CE, 0x1D7D8, 0x1D7E2, 0x1D7EC, 0x1D7F6, 0x1E140, 0x1E2F0, 0x1E950, 0x1FBF0]

/-- The value of a decimal digit of any script. -/
def digitValue (c : Char) : Option ℕ :=
  (zeroCodes.find? fun z => z ≤ c.toNat && c.toNat < z + 10).map (c.toNat - ·)

/-! ### Scanners -/

/-- `\s*`. -/
def skipSpaces (l : Text) : Text := l.dropWhile isSpace

/-- `\s+`. -/
def spaces : Text → Option Text
  | [] => none
  | c :: l => if isSpace c then some (skipSpaces l) else none

/-- A literal. -/
def literal (s : Text) (l : Text) : Option Text :=
  if s.isPrefixOf l then some (l.drop s.length) else none

/-- The digits that `\d*` takes, read as a number on top of `acc`. -/
def digits (acc : ℕ) : Text → ℕ × Text
  | [] => (acc, [])
  | c :: l => match digitValue c with
    | some v => digits (10 * acc + v) l
    | none => (acc, c :: l)

/-- `(\d+)`, with `int` applied to the group. -/
def number : Text → Option (ℕ × Text)
  | [] => none
  | c :: l => (digitValue c).map fun v => digits v l

/-- `(\S+)`. -/
def word (l : Text) : Option Text :=
  let w := l.takeWhile (! isSpace ·)
  if w = [] then none else some w

/-! ### Numbers -/

/-- `str(n)` for a natural number. -/
def ofNat (n : ℕ) : Text := Nat.toDigits 10 n

/-- `str(i)`. -/
def ofInt : ℤ → Text
  | .ofNat n => ofNat n
  | .negSucc n => '-' :: ofNat (n + 1)

theorem skipSpaces_space (l : Text) : skipSpaces (' ' :: l) = skipSpaces l := rfl

theorem skipSpaces_cons {c : Char} (h : isSpace c = false) (l : Text) :
    skipSpaces (c :: l) = c :: l := by
  rw [skipSpaces, List.dropWhile_cons_of_neg (by rw [h]; decide)]

theorem spaces_space (l : Text) : spaces (' ' :: l) = some (skipSpaces l) := rfl

theorem literal_eq_some {s l l' : Text} (h : literal s l = some l') : l = s ++ l' := by
  rw [literal] at h
  split_ifs at h with hs
  obtain ⟨t, rfl⟩ := List.isPrefixOf_iff_prefix.mp hs
  rw [← Option.some.inj h, List.drop_left]

theorem literal_append (s l : Text) : literal s (s ++ l) = some l := by
  rw [literal, if_pos (List.isPrefixOf_iff_prefix.mpr (List.prefix_append s l)), List.drop_left]

/-! ### Lines -/

/-- The line boundaries of `str.splitlines`. -/
def isLineBreak (c : Char) : Bool :=
  c.toNat ∈ [0x0A, 0x0B, 0x0C, 0x0D, 0x1C, 0x1D, 0x1E, 0x85, 0x2028, 0x2029]

/-- `splitlines` with the current line so far, in reverse. -/
def splitlinesFrom (acc : Text) : Text → List Text
  | [] => if acc = [] then [] else [acc.reverse]
  | '\r' :: '\n' :: l => acc.reverse :: splitlinesFrom [] l
  | c :: l => if isLineBreak c then acc.reverse :: splitlinesFrom [] l
    else splitlinesFrom (c :: acc) l

/-- `str.splitlines()`. -/
def splitlines (l : Text) : List Text := splitlinesFrom [] l

/-! ### UTF-8 -/

/-- `str.encode()`. -/
def encode (l : Text) : Bytes := l.flatMap String.utf8EncodeChar

/-- U+FFFD, which stands for undecodable bytes. -/
def replacement : Char := Char.ofNat 0xFFFD

def isContinuation (b : UInt8) : Bool := 0x80 ≤ b && b ≤ 0xBF

/-- The second bytes that may follow the lead byte `b₀` of a three- or four-byte sequence:
overlong forms, surrogates and values past U+10FFFF are excluded here. -/
def isSecond (b₀ b₁ : UInt8) : Bool :=
  if b₀ = 0xE0 then 0xA0 ≤ b₁ && b₁ ≤ 0xBF
  else if b₀ = 0xED then 0x80 ≤ b₁ && b₁ ≤ 0x9F
  else if b₀ = 0xF0 then 0x90 ≤ b₁ && b₁ ≤ 0xBF
  else if b₀ = 0xF4 then 0x80 ≤ b₁ && b₁ ≤ 0x8F
  else isContinuation b₁

/-- The low six bits of a continuation byte. -/
def payload (b : UInt8) : ℕ := b.toNat % 64

/-- One step of `bytes.decode("utf-8", "replace")` on the lead byte `b₀`: the character, and how
many bytes after `b₀` it uses up. An ill-formed sequence gives one replacement character for its
longest prefix that could have been continued. -/
def decodeStep (b₀ : UInt8) (rest : Bytes) : Char × ℕ :=
  if b₀ < 0x80 then (Char.ofNat b₀.toNat, 0)
  else if 0xC2 ≤ b₀ && b₀ ≤ 0xDF then
    match rest with
    | b₁ :: _ =>
      if isContinuation b₁ then (Char.ofNat (b₀.toNat % 32 * 64 + payload b₁), 1)
      else (replacement, 0)
    | [] => (replacement, 0)
  else if 0xE0 ≤ b₀ && b₀ ≤ 0xEF then
    match rest with
    | b₁ :: b₂ :: _ =>
      if ! isSecond b₀ b₁ then (replacement, 0)
      else if ! isContinuation b₂ then (replacement, 1)
      else (Char.ofNat ((b₀.toNat % 16 * 64 + payload b₁) * 64 + payload b₂), 2)
    | [b₁] => (replacement, if isSecond b₀ b₁ then 1 else 0)
    | [] => (replacement, 0)
  else if 0xF0 ≤ b₀ && b₀ ≤ 0xF4 then
    match rest with
    | b₁ :: b₂ :: b₃ :: _ =>
      if ! isSecond b₀ b₁ then (replacement, 0)
      else if ! isContinuation b₂ then (replacement, 1)
      else if ! isContinuation b₃ then (replacement, 2)
      else (Char.ofNat
        (((b₀.toNat % 8 * 64 + payload b₁) * 64 + payload b₂) * 64 + payload b₃), 3)
    | [b₁, b₂] =>
      (replacement, if ! isSecond b₀ b₁ then 0 else if isContinuation b₂ then 2 else 1)
    | [b₁] => (replacement, if isSecond b₀ b₁ then 1 else 0)
    | [] => (replacement, 0)
  else (replacement, 0)

/-- At most `fuel` steps of the decoder. -/
def decodeFuel : ℕ → Bytes → Text
  | 0, _ => []
  | _ + 1, [] => []
  | fuel + 1, b₀ :: rest =>
    let step := decodeStep b₀ rest
    step.1 :: decodeFuel fuel (rest.drop step.2)

/-- `bytes.decode("utf-8", "replace")`. Every step uses up a byte, so the length is fuel
enough. -/
def decode (b : Bytes) : Text := decodeFuel b.length b

/-! ### Reading a number that was printed -/

theorem digitValue_digitChar {d : ℕ} (h : d < 10) : digitValue (Nat.digitChar d) = some d := by
  revert d
  decide

theorem isSpace_digitChar {d : ℕ} (h : d < 10) : isSpace (Nat.digitChar d) = false := by
  revert d
  decide

theorem ofNat_of_lt {n : ℕ} (h : n < 10) : ofNat n = [Nat.digitChar n] :=
  Nat.toDigits_of_lt_base h

theorem ofNat_of_le {n : ℕ} (h : 10 ≤ n) :
    ofNat n = ofNat (n / 10) ++ [Nat.digitChar (n % 10)] :=
  Nat.toDigits_of_base_le (by decide) h

theorem digits_cons {acc d : ℕ} (h : d < 10) (l : Text) :
    digits acc (Nat.digitChar d :: l) = digits (10 * acc + d) l := by
  rw [digits, digitValue_digitChar h]

theorem digits_stop {acc : ℕ} {c : Char} {l : Text} (h : digitValue c = none) :
    digits acc (c :: l) = (acc, c :: l) := by
  rw [digits, h]

theorem digits_ofNat (n : ℕ) (l : Text) : digits 0 (ofNat n ++ l) = digits n l := by
  induction n using Nat.strongRecOn generalizing l with
  | ind n ih =>
    rcases Nat.lt_or_ge n 10 with h | h
    · rw [ofNat_of_lt h, List.singleton_append, digits_cons h, Nat.mul_zero, Nat.zero_add]
    · rw [ofNat_of_le h, List.append_assoc, List.singleton_append, ih (n / 10) (by omega),
        digits_cons (Nat.mod_lt _ (by decide)), Nat.div_add_mod]

/-- A printed number starts with a digit. -/
theorem ofNat_eq_cons (n : ℕ) : ∃ d l, d < 10 ∧ ofNat n = Nat.digitChar d :: l := by
  induction n using Nat.strongRecOn with
  | ind n ih =>
    rcases Nat.lt_or_ge n 10 with h | h
    · exact ⟨n, [], h, ofNat_of_lt h⟩
    · obtain ⟨d, l, hd, hl⟩ := ih (n / 10) (by omega)
      exact ⟨d, l ++ [Nat.digitChar (n % 10)], hd, by rw [ofNat_of_le h, hl, List.cons_append]⟩

/-- **A printed number is read back**, when no digit follows it. -/
theorem number_ofNat (n : ℕ) {c : Char} (l : Text) (h : digitValue c = none) :
    number (ofNat n ++ c :: l) = some (n, c :: l) := by
  have hread := digits_ofNat n (c :: l)
  obtain ⟨d, rest, hd, hcons⟩ := ofNat_eq_cons n
  rw [hcons, List.cons_append, digits_cons hd, Nat.mul_zero, Nat.zero_add, digits_stop h] at hread
  rw [hcons, List.cons_append, number, digitValue_digitChar hd, Option.map_some, hread]

theorem skipSpaces_ofNat (n : ℕ) (l : Text) : skipSpaces (ofNat n ++ l) = ofNat n ++ l := by
  obtain ⟨d, rest, hd, hcons⟩ := ofNat_eq_cons n
  rw [hcons, List.cons_append, skipSpaces,
    List.dropWhile_cons_of_neg (by rw [isSpace_digitChar hd]; decide)]

theorem isDigit_of_mem_ofNat {n : ℕ} {c : Char} (h : c ∈ ofNat n) : c.isDigit = true :=
  Nat.isDigit_of_mem_toDigits (by decide) (by decide) h

/-! ### Reading a file -/

/-- The lines of a file opened as text, with the current line so far, in reverse. Every kind of line
end becomes a newline. -/
def readlinesFrom (acc : Text) : Text → List Text
  | [] => if acc = [] then [] else [acc.reverse]
  | '\r' :: '\n' :: l => ('\n' :: acc).reverse :: readlinesFrom [] l
  | c :: l => if c = '\n' ∨ c = '\r' then ('\n' :: acc).reverse :: readlinesFrom [] l
    else readlinesFrom (c :: acc) l

/-- The lines that iterating over an open file yields. -/
def readlines (l : Text) : List Text := readlinesFrom [] l

theorem readlinesFrom_line {acc w : Text} (hw : '\n' ∉ w ∧ '\r' ∉ w) (l : Text) :
    readlinesFrom acc (w ++ '\n' :: l) = (acc.reverse ++ w ++ ['\n']) :: readlinesFrom [] l := by
  induction w generalizing acc with
  | nil =>
    rw [List.nil_append, readlinesFrom, if_pos (Or.inl rfl), List.reverse_cons, List.append_nil]
    · rintro _ ⟨⟩
  | cons c w ih =>
    simp only [List.mem_cons, not_or] at hw
    rw [List.cons_append, readlinesFrom, if_neg, ih ⟨hw.1.2, hw.2.2⟩]
    · simp
    · rintro (rfl | rfl)
      · exact hw.1.1 rfl
      · exact hw.2.1 rfl
    · rintro l' rfl
      exact absurd rfl hw.2.1

/-- **Lines that were written are read back.** -/
theorem readlines_flatten {lines : List Text}
    (h : ∀ line ∈ lines, ∃ w, line = w ++ ['\n'] ∧ '\n' ∉ w ∧ '\r' ∉ w) :
    readlines lines.flatten = lines := by
  induction lines with
  | nil => rfl
  | cons line lines ih =>
    obtain ⟨⟨w, rfl, hw⟩, hrest⟩ := List.forall_mem_cons.mp h
    rw [List.flatten_cons, List.append_assoc, List.singleton_append, readlines,
      readlinesFrom_line hw]
    exact congrArg _ (ih hrest)

/-! ### ASCII -/

theorem toNat_ofNat_of_valid {n : ℕ} (h : n < 0xD800 ∨ 0xDFFF < n ∧ n < 0x110000) :
    (Char.ofNat n).toNat = n := by
  rw [Char.ofNat, dif_pos h]
  rfl

/-- What the second byte of a sequence adds, for the lead bytes that restrict it. -/
theorem payload_of_isSecond {b₀ b₁ : UInt8} (h : isSecond b₀ b₁ = true) :
    (b₀.toNat = 0xE0 → 32 ≤ payload b₁) ∧ (b₀.toNat = 0xED → payload b₁ < 32) ∧
      (b₀.toNat = 0xF0 → 16 ≤ payload b₁) ∧ (b₀.toNat = 0xF4 → payload b₁ < 16) := by
  have heq : ∀ c : UInt8, b₀ = c ↔ b₀.toNat = c.toNat := fun c => UInt8.toNat_inj.symm
  simp only [isSecond, heq, isContinuation] at h
  rw [payload]
  simp only [UInt8.toNat_ofNat] at h
  split_ifs at h <;> simp [UInt8.le_iff_toNat_le] at h <;> omega

/-- A lead byte outside ASCII never decodes to an ASCII character. -/
theorem decodeStep_not_ascii {b₀ : UInt8} (h : ¬ b₀ < 0x80) (rest : Bytes) :
    0x80 ≤ (decodeStep b₀ rest).1.toNat := by
  have hrep : 0x80 ≤ replacement.toNat := by decide
  have hpay : ∀ b : UInt8, payload b < 64 := fun b => Nat.mod_lt _ (by decide)
  rw [decodeStep.eq_def, if_neg h]
  simp only [Bool.and_eq_true, decide_eq_true_eq, UInt8.le_iff_toNat_le]
  split_ifs with h2 h3 h4
  · simp only [UInt8.toNat_ofNat] at h2
    rcases rest with _ | ⟨b₁, rest⟩
    · exact hrep
    · dsimp only
      have := hpay b₁
      split_ifs
      · rw [toNat_ofNat_of_valid (by omega)]
        omega
      · exact hrep
  · simp only [UInt8.toNat_ofNat] at h3
    rcases rest with _ | ⟨b₁, _ | ⟨b₂, rest⟩⟩
    · exact hrep
    · exact hrep
    · dsimp only
      have := hpay b₁
      have := hpay b₂
      split_ifs with hsecond
      · exact hrep
      · exact hrep
      · obtain ⟨hE0, hED, -, -⟩ := payload_of_isSecond (by simpa using hsecond)
        rw [toNat_ofNat_of_valid (by omega)]
        omega
  · simp only [UInt8.toNat_ofNat] at h4
    rcases rest with _ | ⟨b₁, _ | ⟨b₂, _ | ⟨b₃, rest⟩⟩⟩
    · exact hrep
    · exact hrep
    · exact hrep
    · dsimp only
      have := hpay b₁
      have := hpay b₂
      have := hpay b₃
      split_ifs with hsecond
      · exact hrep
      · exact hrep
      · exact hrep
      · obtain ⟨-, -, hF0, hF4⟩ := payload_of_isSecond (by simpa using hsecond)
        rw [toNat_ofNat_of_valid (by omega)]
        omega
  · exact hrep

/-- A string of ASCII codes. -/
def ascii (b : Bytes) : Text := b.map fun x => Char.ofNat x.toNat

theorem toNat_ofNat_of_ascii {x : UInt8} (hx : x < 0x80) :
    (Char.ofNat x.toNat).toNat = x.toNat := by
  exact toNat_ofNat_of_valid (Or.inl ((UInt8.lt_iff_toNat_lt.mp hx).trans (by decide)))

theorem decodeFuel_eq_ascii {t : Bytes} (ht : ∀ x ∈ t, x < 0x80) {fuel : ℕ} {b : Bytes}
    (hb : b.length ≤ fuel) : decodeFuel fuel b = ascii t ↔ b = t := by
  induction t generalizing fuel b with
  | nil =>
    rcases b with _ | ⟨b₀, rest⟩
    · exact iff_of_true (by rcases fuel with _ | fuel <;> rfl) rfl
    · obtain ⟨fuel, rfl⟩ : ∃ m, fuel = m + 1 := ⟨fuel - 1, by rw [List.length_cons] at hb; omega⟩
      exact iff_of_false (List.cons_ne_nil _ _) (List.cons_ne_nil _ _)
  | cons x t ih =>
    have hx := ht x (List.mem_cons_self ..)
    have ht' : ∀ y ∈ t, y < 0x80 := fun y hy => ht y (List.mem_cons_of_mem _ hy)
    rcases b with _ | ⟨b₀, rest⟩
    · refine iff_of_false ?_ (List.cons_ne_nil _ _).symm
      rcases fuel with _ | fuel <;> exact (List.cons_ne_nil _ _).symm
    · rw [List.length_cons] at hb
      obtain ⟨fuel, rfl⟩ : ∃ m, fuel = m + 1 := ⟨fuel - 1, by omega⟩
      rw [decodeFuel, ascii, List.map_cons, List.cons.injEq, List.cons.injEq]
      by_cases hb₀ : b₀ < 0x80
      · have hstep : decodeStep b₀ rest = (Char.ofNat b₀.toNat, 0) := by
          rw [decodeStep.eq_def, if_pos hb₀]
        rw [hstep, List.drop_zero]
        refine and_congr ⟨fun hc => ?_, fun hc => by rw [hc]⟩ (ih ht' (by omega))
        have := congrArg Char.toNat hc
        rw [toNat_ofNat_of_ascii hb₀, toNat_ofNat_of_ascii hx] at this
        exact UInt8.toNat_inj.mp this
      · refine iff_of_false (fun hc => ?_) (fun hc => hb₀ (hc.1 ▸ hx))
        have := decodeStep_not_ascii hb₀ rest
        rw [hc.1, toNat_ofNat_of_ascii hx] at this
        exact absurd this (not_le.mpr (UInt8.lt_iff_toNat_lt.mp hx))

/-- **ASCII is decoded from itself only**, errors being replaced. -/
theorem decode_eq_ascii {t : Bytes} (ht : ∀ x ∈ t, x < 0x80) {b : Bytes} :
    decode b = ascii t ↔ b = t :=
  decodeFuel_eq_ascii ht le_rfl

/-- The bytes below 128, checked one by one. -/
theorem lt_of_all {t : Bytes} (h : t.all (· < 0x80) = true) : ∀ x ∈ t, x < 0x80 :=
  fun x hx => of_decide_eq_true (List.all_eq_true.mp h x hx)

/-! ### Decoding what was encoded -/

/-- A byte of a sequence, by its offset from the mark of its kind. -/
theorem toNat_mark {n m : ℕ} (h : n + m < 256) : (UInt8.ofNat (n + m)).toNat = n + m :=
  UInt8.toNat_ofNat_of_lt' h

theorem continuation_mark {n : ℕ} (h : n < 64) :
    isContinuation (UInt8.ofNat (n + 128)) = true ∧ payload (UInt8.ofNat (n + 128)) = n := by
  rw [isContinuation, payload, toNat_mark (by omega), Bool.and_eq_true, decide_eq_true_eq,
    decide_eq_true_eq, UInt8.le_iff_toNat_le, UInt8.le_iff_toNat_le, toNat_mark (by omega)]
  simp only [UInt8.toNat_ofNat]
  omega

/-- What a lead byte says, by its value. -/
theorem decodeStep_lead (b₀ : UInt8) (rest : Bytes) :
    (b₀.toNat < 0x80 → decodeStep b₀ rest = (Char.ofNat b₀.toNat, 0)) ∧
    (∀ b₁, 0xC2 ≤ b₀.toNat → b₀.toNat ≤ 0xDF → isContinuation b₁ = true →
      decodeStep b₀ (b₁ :: rest) = (Char.ofNat (b₀.toNat % 32 * 64 + payload b₁), 1)) ∧
    (∀ b₁ b₂, 0xE0 ≤ b₀.toNat → b₀.toNat ≤ 0xEF → isSecond b₀ b₁ = true →
      isContinuation b₂ = true → decodeStep b₀ (b₁ :: b₂ :: rest)
        = (Char.ofNat ((b₀.toNat % 16 * 64 + payload b₁) * 64 + payload b₂), 2)) ∧
    ∀ b₁ b₂ b₃, 0xF0 ≤ b₀.toNat → b₀.toNat ≤ 0xF4 → isSecond b₀ b₁ = true →
      isContinuation b₂ = true → isContinuation b₃ = true →
      decodeStep b₀ (b₁ :: b₂ :: b₃ :: rest)
        = (Char.ofNat (((b₀.toNat % 8 * 64 + payload b₁) * 64 + payload b₂) * 64 + payload b₃),
          3) := by
  refine ⟨fun h => ?_, fun b₁ hlo hhi h₁ => ?_, fun b₁ b₂ hlo hhi h₁ h₂ => ?_,
    fun b₁ b₂ b₃ hlo hhi h₁ h₂ h₃ => ?_⟩
  all_goals
    rw [decodeStep.eq_def]
    simp only [Bool.and_eq_true, decide_eq_true_eq, UInt8.le_iff_toNat_le, UInt8.lt_iff_toNat_lt,
      UInt8.toNat_ofNat]
  · rw [if_pos h]
  · rw [if_neg (by omega), if_pos ⟨hlo, hhi⟩, if_pos h₁]
  · rw [if_neg (by omega), if_neg (by omega), if_pos ⟨hlo, hhi⟩]
    simp [h₁, h₂]
  · rw [if_neg (by omega), if_neg (by omega), if_neg (by omega), if_pos ⟨hlo, hhi⟩]
    simp [h₁, h₂, h₃]

/-- A second byte is one that the lead byte allows. -/
theorem isSecond_mark (b₀ : UInt8) {n : ℕ} (h : n < 64) (hE0 : b₀.toNat = 0xE0 → 32 ≤ n)
    (hED : b₀.toNat = 0xED → n < 32) (hF0 : b₀.toNat = 0xF0 → 16 ≤ n)
    (hF4 : b₀.toNat = 0xF4 → n < 16) : isSecond b₀ (UInt8.ofNat (n + 128)) = true := by
  have heq : ∀ c : UInt8, b₀ = c ↔ b₀.toNat = c.toNat := fun c => UInt8.toNat_inj.symm
  have hbyte := toNat_mark (show n + 128 < 256 by omega)
  rw [isSecond]
  simp only [heq, UInt8.toNat_ofNat]
  split_ifs
  all_goals
    simp only [isContinuation, Bool.and_eq_true, decide_eq_true_eq, UInt8.le_iff_toNat_le, hbyte,
      UInt8.toNat_ofNat]
    omega

/-- **A character that was encoded is decoded**, whatever follows it. -/
theorem decodeStep_encode (c : Char) (rest : Bytes) :
    ∃ b₀ bs, String.utf8EncodeChar c = b₀ :: bs ∧ decodeStep b₀ (bs ++ rest) = (c, bs.length) := by
  obtain ⟨v, hv⟩ : ∃ v, v = c.val.toNat := ⟨_, rfl⟩
  have hvalid : v < 0xD800 ∨ 0xDFFF < v ∧ v < 0x110000 := hv ▸ c.valid
  have hc : c = Char.ofNat v := by rw [hv]; exact (Char.ofNat_toNat c).symm
  rw [String.utf8EncodeChar]
  simp only [← hv]
  split_ifs with h1 h2 h3
  · refine ⟨_, _, rfl, ?_⟩
    have hb := toNat_mark (show v + 0 < 256 by omega)
    rw [Nat.add_zero] at hb
    rw [(decodeStep_lead _ _).1 (by omega), hb, hc]
    rfl
  · refine ⟨_, _, rfl, ?_⟩
    have hb := toNat_mark (show v / 64 % 32 + 192 < 256 by omega)
    obtain ⟨h₁, hp₁⟩ := continuation_mark (show v % 64 < 64 by omega)
    refine ((decodeStep_lead _ _).2.1 _ (by omega) (by omega) h₁).trans ?_
    rw [hb, hp₁, hc]
    congr 2
    omega
  · refine ⟨_, _, rfl, ?_⟩
    have hb := toNat_mark (show v / 4096 % 16 + 224 < 256 by omega)
    obtain ⟨-, hp₁⟩ := continuation_mark (show v / 64 % 64 < 64 by omega)
    obtain ⟨h₂, hp₂⟩ := continuation_mark (show v % 64 < 64 by omega)
    have h₁ := isSecond_mark (UInt8.ofNat (v / 4096 % 16 + 224))
      (show v / 64 % 64 < 64 by omega) (by omega) (by omega) (by omega) (by omega)
    refine ((decodeStep_lead _ _).2.2.1 _ _ (by omega) (by omega) h₁ h₂).trans ?_
    rw [hb, hp₁, hp₂, hc]
    congr 2
    omega
  · refine ⟨_, _, rfl, ?_⟩
    have hb := toNat_mark (show v / 262144 % 8 + 240 < 256 by omega)
    obtain ⟨-, hp₁⟩ := continuation_mark (show v / 4096 % 64 < 64 by omega)
    obtain ⟨h₂, hp₂⟩ := continuation_mark (show v / 64 % 64 < 64 by omega)
    obtain ⟨h₃, hp₃⟩ := continuation_mark (show v % 64 < 64 by omega)
    have h₁ := isSecond_mark (UInt8.ofNat (v / 262144 % 8 + 240))
      (show v / 4096 % 64 < 64 by omega) (by omega) (by omega) (by omega) (by omega)
    refine ((decodeStep_lead _ _).2.2.2 _ _ _ (by omega) (by omega) h₁ h₂ h₃).trans ?_
    rw [hb, hp₁, hp₂, hp₃, hc]
    congr 2
    omega

theorem decodeFuel_encode (l : Text) {fuel : ℕ} (h : (encode l).length ≤ fuel) :
    decodeFuel fuel (encode l) = l := by
  induction l generalizing fuel with
  | nil => rcases fuel with _ | fuel <;> rfl
  | cons c l ih =>
    obtain ⟨b₀, bs, hc, hstep⟩ := decodeStep_encode c (encode l)
    have hencode : encode (c :: l) = b₀ :: (bs ++ encode l) := by
      rw [encode, List.flatMap_cons, hc, List.cons_append]
      rfl
    rw [hencode, List.length_cons, List.length_append] at h
    obtain ⟨fuel, rfl⟩ : ∃ m, fuel = m + 1 := ⟨fuel - 1, by omega⟩
    rw [hencode, decodeFuel, hstep, List.drop_left, ih (by omega)]

/-- **What was encoded is decoded.** -/
theorem decode_encode (l : Text) : decode (encode l) = l := decodeFuel_encode l le_rfl

theorem encode_inj {l l' : Text} : encode l = encode l' ↔ l = l' := by
  refine ⟨fun h => ?_, congrArg encode⟩
  rw [← decode_encode l, h, decode_encode]

end Text

end PalmaEos
