import PalmaEos.Lib.AddressSpace

/-!
# Writes that may fail

A writer overwrites a range of an address space, from the start of a block of `k` elements on, and
says whether it has. When it has not, the range may hold anything. A batch of writes is carried out
in order, up to the first that fails.

What a whole batch leaves does not depend on what its ranges held before. So a batch that has failed
can be tried again, with whatever writers, and the attempt that goes through leaves what a batch
that never failed would leave.

## Main results

* `writeRanges_frame` — what an attempt leaves alone
* `writeRanges_whole` — what an attempt leaves that goes through
* `writeRanges_retried` — attempts before it make no difference
-/

namespace PalmaEos

variable {α : Type*}

/-- What writing a sequence from a block on makes of the space, and whether it is reported done. -/
abbrev Writer (α : Type*) := ℕ → List α → (ℕ → α) → (ℕ → α) × Bool

/-- What is reported done has been done, and nothing else has changed in either case. -/
structure Writer.Honest (k : ℕ) (w : Writer α) : Prop where
  wrote : ∀ {x bs d}, (w x bs d).2 = true → (w x bs d).1 = overwrite d (x * k) bs
  frame : ∀ {x bs d i}, i < x * k ∨ x * k + bs.length ≤ i → (w x bs d).1 i = d i

/-- The writes, in order, up to the first that fails. -/
def writeRanges (w : Writer α) : List (ℕ × List α) → (ℕ → α) → (ℕ → α) × Bool
  | [], d => (d, true)
  | p :: W, d =>
    let (d', ok) := w p.1 p.2 d
    if ok then writeRanges w W d' else (d', false)

/-- What the writes leave when none fails. -/
def overwriteAll (k : ℕ) (W : List (ℕ × List α)) (d : ℕ → α) : ℕ → α :=
  W.foldl (fun d p => overwrite d (p.1 * k) p.2) d

/-- Address `i` is in one of the ranges. -/
def Touches (k : ℕ) (W : List (ℕ × List α)) (i : ℕ) : Prop :=
  ∃ p ∈ W, p.1 * k ≤ i ∧ i < p.1 * k + p.2.length

section Attempts

variable {k : ℕ} {w : Writer α} {W : List (ℕ × List α)} {d e : ℕ → α} {i : ℕ}

theorem touches_cons {p : ℕ × List α} :
    Touches k (p :: W) i ↔ (p.1 * k ≤ i ∧ i < p.1 * k + p.2.length) ∨ Touches k W i := by
  rw [Touches, List.exists_mem_cons_iff, ← Touches]

theorem overwriteAll_cons (p : ℕ × List α) :
    overwriteAll k (p :: W) d = overwriteAll k W (overwrite d (p.1 * k) p.2) := rfl

theorem writeRanges_cons_of_done {p : ℕ × List α} (h : (w p.1 p.2 d).2 = true) :
    writeRanges w (p :: W) d = writeRanges w W (w p.1 p.2 d).1 := if_pos h

theorem writeRanges_cons_of_failed {p : ℕ × List α} (h : ¬ (w p.1 p.2 d).2 = true) :
    writeRanges w (p :: W) d = ((w p.1 p.2 d).1, false) := if_neg h

/-- **The frame of an attempt**, whether it goes through or not. -/
theorem writeRanges_frame (hw : w.Honest k) (hi : ¬ Touches k W i) :
    (writeRanges w W d).1 i = d i := by
  induction W generalizing d with
  | nil => rfl
  | cons p W ih =>
    rw [touches_cons, not_or] at hi
    have hfirst : (w p.1 p.2 d).1 i = d i := hw.frame (by omega)
    by_cases hdone : (w p.1 p.2 d).2 = true
    · rw [writeRanges_cons_of_done hdone, ih hi.2, hfirst]
    · rw [writeRanges_cons_of_failed hdone, hfirst]

/-- **An attempt that goes through.** -/
theorem writeRanges_whole (hw : w.Honest k) (hok : (writeRanges w W d).2 = true) :
    (writeRanges w W d).1 = overwriteAll k W d := by
  induction W generalizing d with
  | nil => rfl
  | cons p W ih =>
    by_cases hdone : (w p.1 p.2 d).2 = true
    · rw [writeRanges_cons_of_done hdone] at hok ⊢
      rw [ih hok, hw.wrote hdone, overwriteAll_cons]
    · rw [writeRanges_cons_of_failed hdone] at hok
      exact absurd hok Bool.false_ne_true

theorem writeRanges_sure (hw : ∀ x bs d, (w x bs d).2 = true) : (writeRanges w W d).2 = true := by
  induction W generalizing d with
  | nil => rfl
  | cons p W ih =>
    rw [writeRanges_cons_of_done (hw p.1 p.2 d)]
    exact ih

/-- What a batch leaves at an address is the same for two spaces, if it writes there or if they
agree there. -/
theorem overwriteAll_congr_at (h : Touches k W i ∨ d i = e i) :
    overwriteAll k W d i = overwriteAll k W e i := by
  induction W generalizing d e with
  | nil =>
    rcases h with ⟨p, hp, -⟩ | h
    · exact absurd hp List.not_mem_nil
    · exact h
  | cons p W ih =>
    rw [overwriteAll_cons, overwriteAll_cons]
    refine ih ?_
    rw [touches_cons, or_assoc] at h
    rcases h with hp | h | h
    · refine Or.inr ?_
      rw [overwrite_of_le _ hp.1, overwrite_of_le _ hp.1, List.getElem?_eq_getElem (by omega),
        Option.getD_some, Option.getD_some]
    · exact Or.inl h
    · refine Or.inr ?_
      rw [overwrite, overwrite, h]

/-- Writing over what an earlier attempt may have left. -/
theorem overwriteAll_congr (h : ∀ i, ¬ Touches k W i → d i = e i) :
    overwriteAll k W d = overwriteAll k W e :=
  funext fun i => overwriteAll_congr_at ((em (Touches k W i)).imp_right (h i))

/-- **A batch that is tried again.** If nothing has changed outside the ranges since `d`, an attempt
that goes through leaves what the batch makes of `d`. -/
theorem writeRanges_retried (hw : w.Honest k) (hsame : ∀ i, ¬ Touches k W i → e i = d i)
    (hok : (writeRanges w W e).2 = true) : (writeRanges w W e).1 = overwriteAll k W d := by
  rw [writeRanges_whole hw hok, overwriteAll_congr hsame]

end Attempts

end PalmaEos
