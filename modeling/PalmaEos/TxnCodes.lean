import Mathlib.Data.List.MinMax
import PalmaEos.Lib.Text

/-!
# `aidl-txn-codes.py`

A binder interface numbers its methods from 1 in the order of their declaration, so a method that
only one of two builds has shifts all that come behind it. The script walks the codes of both builds
with a running shift: a code at which the two disagree is taken for a method that A has and B has
not, and from there on A's codes are compared with B's codes one lower. A second walk with the same
shifts collects what still disagrees.

The two dictionaries are what `codes` finds in the libraries; `main` is modelled from there on. The
order of a dictionary's items does not matter, and the names are never empty.

## Main results

* `bad_eq_nil` — the second walk never finds anything
* `inserted_found_exactly` — the methods inserted into an interface are found
* `verdictsSound_iff` — when the report can be trusted
-/

namespace PalmaEos

namespace TxnCodes

/-- `{transaction_code: method_name}`. -/
abbrev Codes := List (ℕ × Text)

/-- `a.get(c)`. -/
def get (a : Codes) (c : ℕ) : Option Text := (a.find? (·.1 = c)).map Prod.snd

/-- `max(list(a) + list(b), default=0)`. -/
def maxCode (a b : Codes) : ℕ := ((a ++ b).map Prod.fst).foldr max 0

/-- `av` and `bv`, when `av and bv and av != bv`. Fewer than `c` codes come before code `c`, so the
difference is not cut off. -/
def mismatch (a b : Codes) (c shift : ℕ) : Option (Text × Text) := do
  let av ← get a c
  let bv ← get b (c - shift)
  if av ≠ [] ∧ bv ≠ [] ∧ av ≠ bv then some (av, bv) else none

/-- The first walk, over the codes that are left. -/
def insertsFrom (a b : Codes) : ℕ → List ℕ → List (ℕ × Text)
  | _, [] => []
  | shift, c :: cs =>
    match mismatch a b c shift with
    | some (av, _) => (c, av) :: insertsFrom a b (shift + 1) cs
    | none => insertsFrom a b shift cs

/-- `inserts`. -/
def inserts (a b : Codes) : List (ℕ × Text) := insertsFrom a b 0 (List.range' 1 (maxCode a b))

/-- The second walk. -/
def badFrom (a b : Codes) (inserts : List (ℕ × Text)) : ℕ → List ℕ → List (ℕ × Text × Text)
  | _, [] => []
  | shift, c :: cs =>
    if inserts.any (·.1 = c) then badFrom a b inserts (shift + 1) cs
    else
      match mismatch a b c shift with
      | some (av, bv) => (c, av, bv) :: badFrom a b inserts shift cs
      | none => badFrom a b inserts shift cs

/-- `bad`. -/
def bad (a b : Codes) : List (ℕ × Text × Text) :=
  badFrom a b (inserts a b) 0 (List.range' 1 (maxCode a b))

/-- What is printed, and the exit status. -/
structure Report where
  inserts : List (ℕ × Text)
  bad : List (ℕ × Text × Text)
  status : ℕ

/-- `main` with two libraries. -/
def main (a b : Codes) : Report where
  inserts := inserts a b
  bad := bad a b
  status := if inserts a b = [] ∧ bad a b = [] then 0 else 1

/-! ### The second walk -/

section Walks

variable {a b : Codes}

theorem insertsFrom_any_of_not_mem {c shift : ℕ} {cs : List ℕ} (hc : c ∉ cs) :
    (insertsFrom a b shift cs).any (·.1 = c) = false := by
  induction cs generalizing shift with
  | nil => rfl
  | cons c' cs ih =>
    rw [List.mem_cons, not_or] at hc
    obtain ⟨hne, hc⟩ := hc
    rw [insertsFrom]
    cases mismatch a b c' shift with
    | none => exact ih hc
    | some p => rw [List.any_cons, ih hc, Bool.or_false, decide_eq_false (Ne.symm hne)]

/-- The second walk follows the first: it skips where the first found a mismatch, and so looks at
the other codes with the same shift. -/
theorem badFrom_eq_nil {ins : List (ℕ × Text)} {shift : ℕ} {cs : List ℕ} (hcs : cs.Nodup)
    (hins : ∀ c ∈ cs, ins.any (·.1 = c) = (insertsFrom a b shift cs).any (·.1 = c)) :
    badFrom a b ins shift cs = [] := by
  induction cs generalizing shift with
  | nil => rfl
  | cons c cs ih =>
    obtain ⟨hnew, hcs⟩ := List.nodup_cons.mp hcs
    have hself := hins c List.mem_cons_self
    have hrest := fun c' hc' => hins c' (List.mem_cons_of_mem c hc')
    rw [insertsFrom] at hself hrest
    rw [badFrom]
    cases hmis : mismatch a b c shift with
    | some p =>
      simp only [hmis, List.any_cons, decide_true, Bool.true_or] at hself hrest
      rw [if_pos hself]
      refine ih hcs fun c' hc' => ?_
      have hne : c ≠ c' := fun h => hnew (h ▸ hc')
      rw [hrest c' hc', decide_eq_false hne, Bool.false_or]
    | none =>
      simp only [hmis] at hself hrest
      rw [hself, insertsFrom_any_of_not_mem hnew, if_neg (by decide)]
      exact ih hcs hrest

/-- **The second walk never finds anything**, whatever the two interfaces are. -/
theorem bad_eq_nil (a b : Codes) : bad a b = [] :=
  badFrom_eq_nil List.nodup_range' fun _ _ => rfl

end Walks

/-! ### The first walk -/

/-- The dictionary numbers the methods from 1, in their order. -/
structure Declares (a : Codes) (methods : List Text) : Prop where
  get_succ : ∀ i, get a (i + 1) = methods[i]?
  get_zero : get a 0 = none
  named : [] ∉ methods

/-- A dictionary of an interface. -/
def codesOf (methods : List Text) : Codes := methods.zipIdx.map fun p => (p.2 + 1, p.1)

theorem declares_codesOf {methods : List Text} (h : [] ∉ methods) :
    Declares (codesOf methods) methods := by
  have hget : ∀ (c k : ℕ), get ((methods.zipIdx k).map fun p => (p.2 + 1, p.1)) c
      = if k < c then methods[c - k - 1]? else none := by
    clear h
    intro c k
    induction methods generalizing k with
    | nil => simp [get]
    | cons x methods ih =>
      rw [List.zipIdx_cons, List.map_cons, get]
      by_cases hc : k + 1 = c
      · rw [List.find?_cons_of_pos (by simpa using hc), if_pos (by omega), ← hc,
          show k + 1 - k - 1 = 0 by omega]
        rfl
      · rw [List.find?_cons_of_neg (by simpa using hc), ← get, ih]
        split_ifs with h₁ h₂ h₂
        · rw [show c - k - 1 = c - (k + 1) - 1 + 1 by omega, List.getElem?_cons_succ]
        · omega
        · omega
        · rfl
  refine ⟨fun i => ?_, ?_, h⟩
  · rw [codesOf, hget, if_pos (Nat.succ_pos i), Nat.sub_zero, Nat.add_sub_cancel]
  · rw [codesOf, hget, if_neg (lt_irrefl 0)]

/-- What the first walk does to two lists of methods: a method of A that B has not at its place is
passed over. -/
def align : ℕ → List Text → List Text → List (ℕ × Text)
  | c, x :: A, y :: B => if x ≠ y then (c, x) :: align (c + 1) A (y :: B) else align (c + 1) A B
  | _, _, _ => []

section Align

variable {a b : Codes} {A B : List Text}

theorem le_maxCode {c : ℕ} (h : get a c ≠ none) : c ≤ maxCode a b := by
  obtain ⟨x, hx⟩ := Option.ne_none_iff_exists'.mp h
  obtain ⟨p, hp, -⟩ := Option.map_eq_some_iff.mp hx
  have hmem : c ∈ (a ++ b).map Prod.fst := by
    refine List.mem_map.mpr ⟨p, List.mem_append_left _ (List.mem_of_find?_eq_some hp), ?_⟩
    simpa using List.find?_some hp
  exact List.le_max_of_le' 0 hmem le_rfl

theorem Declares.length_le (ha : Declares a A) : A.length ≤ maxCode a b := by
  rcases Nat.eq_zero_or_pos A.length with hlen | hlen
  · omega
  · refine le_maxCode ?_
    rw [← Nat.sub_add_cancel hlen, ha.get_succ, List.getElem?_eq_getElem (by omega)]
    exact Option.some_ne_none _

theorem align_nil_right (c : ℕ) (A : List Text) : align c A [] = [] := by
  cases A with
  | nil => rfl
  | cons x A => rfl

/-- From two positions on, the walk over the codes is the walk over the methods. -/
theorem insertsFrom_eq_align {c shift n : ℕ} (hshift : shift < c)
    (ha : ∀ i, get a (c + i) = A[i]?) (hb : ∀ i, get b (c - shift + i) = B[i]?)
    (hA : [] ∉ A) (hB : [] ∉ B) (hn : A.length ≤ n) :
    insertsFrom a b shift (List.range' c n) = align c A B := by
  induction n generalizing c shift A B with
  | zero =>
    rw [List.eq_nil_of_length_eq_zero (Nat.le_zero.mp hn)]
    rfl
  | succ n ih =>
    have htail : ∀ {d : Codes} {p : ℕ} {l : List Text}, (∀ i, get d (p + i) = l[i]?) →
        ∀ i, get d (p + 1 + i) = l.tail[i]? := by
      intro d p l h i
      rw [Nat.add_assoc, h, Nat.add_comm 1 i, List.getElem?_tail]
    have hnamed : ∀ {l : List Text}, [] ∉ l → [] ∉ l.tail := fun h hl => h (List.mem_of_mem_tail hl)
    have hlen : A.tail.length ≤ n := by
      rw [List.length_tail]
      omega
    have hnext := htail hb
    rw [← Nat.sub_add_comm hshift.le] at hnext
    have hpass : insertsFrom a b shift (List.range' (c + 1) n) = align (c + 1) A.tail B.tail :=
      ih (by omega) (htail ha) hnext (hnamed hA) (hnamed hB) hlen
    have hskip : insertsFrom a b (shift + 1) (List.range' (c + 1) n) = align (c + 1) A.tail B :=
      ih (by omega) (htail ha) (by rwa [Nat.add_sub_add_right]) (hnamed hA) hB hlen
    have ha₀ := ha 0
    have hb₀ := hb 0
    rw [Nat.add_zero] at ha₀ hb₀
    rw [List.range'_succ, insertsFrom, mismatch, ha₀, hb₀]
    rcases A with _ | ⟨x, A⟩
    · exact hpass
    rcases B with _ | ⟨y, B⟩
    · rw [List.tail_nil, align_nil_right] at hpass
      exact hpass
    have hx : x ≠ [] := fun h => hA (h ▸ List.mem_cons_self)
    have hy : y ≠ [] := fun h => hB (h ▸ List.mem_cons_self)
    simp only [List.getElem?_cons_zero, Option.bind_eq_bind, Option.bind_some, hx, hy, ne_eq,
      not_false_eq_true, true_and]
    rw [align]
    by_cases hxy : x = y
    · simp only [hxy, not_true, if_false, ne_eq]
      exact hpass
    · simp only [hxy, not_false_eq_true, if_true, ne_eq]
      exact congrArg ((c, x) :: ·) hskip

/-- **The first walk** over two interfaces. -/
theorem inserts_eq_align (ha : Declares a A) (hb : Declares b B) : inserts a b = align 1 A B := by
  refine insertsFrom_eq_align (by omega) (fun i => ?_) (fun i => ?_) ha.named hb.named ha.length_le
  · rw [Nat.add_comm, ha.get_succ]
  · rw [Nat.sub_zero, Nat.add_comm, hb.get_succ]

end Align

/-! ### Insertions -/

/-- The methods of A that B declares too. -/
def common (A B : List Text) : List Text := A.filter (B.contains ·)

/-- The methods that B does not declare and that have a method of B behind them, with their codes
in A, from code `c` on. -/
def insertedBefore (B : List Text) : ℕ → List Text → List (ℕ × Text)
  | _, [] => []
  | c, x :: A =>
    if ! B.contains x && A.any (B.contains ·) then (c, x) :: insertedBefore B (c + 1) A
    else insertedBefore B (c + 1) A

section Insertions

variable {a b : Codes} {A B : List Text}

theorem mem_common {x : Text} : x ∈ common A B ↔ x ∈ A ∧ x ∈ B := by
  rw [common, List.mem_filter, List.contains_iff_mem]

theorem common_cons_of_mem {x : Text} (h : x ∈ B) : common (x :: A) B = x :: common A B :=
  List.filter_cons_of_pos (List.contains_iff_mem.mpr h)

theorem common_cons_of_notMem {x : Text} (h : x ∉ B) : common (x :: A) B = common A B :=
  List.filter_cons_of_neg fun hx => h (List.contains_iff_mem.mp hx)

theorem common_eq_self (h : ∀ m ∈ A, m ∈ B) : common A B = A :=
  List.filter_eq_self.mpr fun m hm => List.contains_iff_mem.mpr (h m hm)

/-- Which methods are among `insertedBefore`. -/
theorem inserted_iff {x : Text} : (! B.contains x && A.any (B.contains ·)) = true ↔
    x ∉ B ∧ ∃ y ∈ A, y ∈ B := by
  rw [Bool.and_eq_true, Bool.not_eq_true', ← Bool.not_eq_true, List.contains_iff_mem,
    List.any_eq_true]
  simp only [List.contains_iff_mem]

theorem not_mem_of_mem_insertedBefore {c : ℕ} {p : ℕ × Text} (h : p ∈ insertedBefore B c A) :
    p.2 ∉ B := by
  induction A generalizing c with
  | nil => exact absurd h List.not_mem_nil
  | cons x A ih =>
    rw [insertedBefore] at h
    split_ifs at h with hx
    · rcases List.mem_cons.mp h with rfl | h
      · exact (inserted_iff.mp hx).1
      · exact ih h
    · exact ih h

/-- Where A is B with other methods put in, the walk passes over just those: the shift is the number
of them so far, so B's next method is at hand. -/
theorem align_common (c : ℕ) : align c A (common A B) = insertedBefore B c A := by
  induction A generalizing c with
  | nil => rfl
  | cons x A ih =>
    rw [insertedBefore]
    by_cases hx : x ∈ B
    · rw [common_cons_of_mem hx, align, if_neg (not_not.mpr rfl),
        if_neg (fun h => (inserted_iff.mp h).1 hx), ih]
    · rw [common_cons_of_notMem hx]
      cases hrest : common A B with
      | nil =>
        have hnone : ¬ ∃ y ∈ A, y ∈ B := by
          rintro ⟨y, hy, hyB⟩
          have hmem : y ∈ common A B := mem_common.mpr ⟨hy, hyB⟩
          rw [hrest] at hmem
          exact absurd hmem List.not_mem_nil
        rw [align_nil_right, if_neg (fun h => hnone (inserted_iff.mp h).2), ← ih, hrest,
          align_nil_right]
      | cons y rest =>
        obtain ⟨hyA, hyB⟩ := mem_common.mp (hrest ▸ List.mem_cons_self : y ∈ common A B)
        have hxy : x ≠ y := fun h => hx (h ▸ hyB)
        rw [align, if_pos hxy, if_pos (inserted_iff.mpr ⟨hx, y, hyA, hyB⟩), ← hrest, ih]

/-- **Inserted methods are found exactly.** -/
theorem inserted_found_exactly (ha : Declares a A) (hb : Declares b B)
    (hinserted : common A B = B) :
    (main a b).inserts = insertedBefore B 1 A ∧ (main a b).bad = [] := by
  refine ⟨?_, bad_eq_nil a b⟩
  calc inserts a b = align 1 A B := inserts_eq_align ha hb
    _ = align 1 A (common A B) := by rw [hinserted]
    _ = insertedBefore B 1 A := align_common 1

end Insertions

/-- `getMaxLayerPictureProfiles` stands before `getB` and `last` behind it. -/
theorem inserted_found_exactly_profiles :
    let A := ["getA", "getMaxLayerPictureProfiles", "getB", "last"].map String.toList
    let B := ["getA", "getB"].map String.toList
    (main (codesOf A) (codesOf B)).inserts = [(2, "getMaxLayerPictureProfiles".toList)] ∧
      (main (codesOf A) (codesOf B)).bad = [] := by
  exact inserted_found_exactly (declares_codesOf (by decide)) (declares_codesOf (by decide))
    (by decide)

/-! ### Verdicts -/

/-- A and B hold the same method at every code that both have. -/
def Agree (A B : List Text) : Prop := ∀ (i : ℕ) x y, A[i]? = some x → B[i]? = some y → x = y

/-- At some code A and B hold different methods, and no methods that only A has can account for it:
B declares a method that A lacks, or the common methods are in a different order. -/
def Unaccounted (A B : List Text) : Prop :=
  ¬ Agree A B ∧ ((∃ m ∈ B, m ∉ A) ∨ common A B ≠ common B A)

/-- What is reported as A's own is not declared by B, and a mismatch that such methods cannot
account for is reported. -/
def VerdictsSound (a b : Codes) (A B : List Text) : Prop :=
  (∀ p ∈ (main a b).inserts, p.2 ∉ B) ∧ (Unaccounted A B → (main a b).bad ≠ [])

section Verdicts

variable {a b : Codes} {A B : List Text}

/-- B's methods are all in A, and in their order, when A's common methods are B. -/
theorem common_eq_iff : common A B = B ↔
    ¬ ((∃ m ∈ B, m ∉ A) ∨ common A B ≠ common B A) := by
  rw [not_or, not_not]
  push Not
  constructor
  · intro h
    have hall : ∀ m ∈ B, m ∈ A := by
      intro m hm
      rw [← h] at hm
      exact (mem_common.mp hm).1
    exact ⟨hall, h.trans (common_eq_self hall).symm⟩
  · rintro ⟨hall, h⟩
    rw [h, common_eq_self hall]

theorem align_eq_nil {c : ℕ} (h : Agree A B) : align c A B = [] := by
  induction A generalizing B c with
  | nil => rfl
  | cons x A ih =>
    cases B with
    | nil => rfl
    | cons y B =>
      rw [align, if_neg (not_not.mpr (h 0 x y rfl rfl))]
      exact ih fun i x' y' hx hy => h (i + 1) x' y' hx hy

/-- **When the report can be trusted**: when the interfaces agree at every code that both have, or
when every method of B is in A, in B's order. -/
theorem verdictsSound_iff (ha : Declares a A) (hb : Declares b B) : VerdictsSound a b A B ↔
    Agree A B ∨ common A B = B := by
  have haccounted : Agree A B ∨ common A B = B ↔ ¬ Unaccounted A B := by
    rw [Unaccounted, common_eq_iff, not_and_or, not_not]
  rw [haccounted]
  constructor
  · rintro ⟨-, hbad⟩ hun
    exact hbad hun (bad_eq_nil a b)
  · intro hacc
    refine ⟨fun p hp => ?_, fun hun => absurd hun hacc⟩
    rcases haccounted.mpr hacc with hsame | hinserted
    · have hnil : inserts a b = [] := (inserts_eq_align ha hb).trans (align_eq_nil hsame)
      rw [main, hnil] at hp
      exact absurd hp List.not_mem_nil
    · have hinserts : inserts a b = insertedBefore B 1 A := by
        rw [inserts_eq_align ha hb, ← align_common, hinserted]
      rw [main, hinserts] at hp
      exact not_mem_of_mem_insertedBefore hp

end Verdicts

theorem verdictsSound_profiles :
    let A := ["getA", "getMaxLayerPictureProfiles", "getB", "last"].map String.toList
    let B := ["getA", "getB"].map String.toList
    VerdictsSound (codesOf A) (codesOf B) A B :=
  (verdictsSound_iff (declares_codesOf (by decide)) (declares_codesOf (by decide))).mpr
    (Or.inr (by decide))

/-- Two methods in the other order. -/
theorem not_verdictsSound_swapped :
    ¬ VerdictsSound (codesOf (["getA", "getB"].map String.toList))
      (codesOf (["getB", "getA"].map String.toList)) (["getA", "getB"].map String.toList)
      (["getB", "getA"].map String.toList) := by
  rintro ⟨hinserts, -⟩
  exact hinserts (1, "getA".toList) (by decide) (by decide)

end TxnCodes

end PalmaEos
