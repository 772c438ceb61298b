import Mathlib.Data.List.Sort
import PalmaEos.Lib.Fields

/-!
# Tables in text files

A table is a text of lines, each ended by one separator, with columns that another one parts. Tools
read it line by line, write it anew, sort it, and look for the first line of a kind.

## Main results

* `fields_unlines` — what was written as lines is read back as these lines
* `find?_mergeSort` — the first line of a kind in a sorted table is the least one
* `mergeSort_eq_of_perm` — sorting forgets the order that the lines came in
-/

namespace PalmaEos

namespace Table

open Fields

variable {α : Type*} {p : α → Bool} {s : α} {le : α → α → Bool}

/-- Lines, each with the separator behind it. -/
def unlines (s : α) (ls : List (List α)) : List α := ls.flatMap fun l => l ++ [s]

theorem unlines_cons (s : α) (l : List α) (ls : List (List α)) :
    unlines s (l :: ls) = l ++ s :: unlines s ls := by
  rw [unlines, List.flatMap_cons, List.append_assoc, List.singleton_append, unlines]

/-- **Lines are read back** as they were written. -/
theorem fields_unlines (hs : p s) {ls : List (List α)} (h : ∀ l ∈ ls, ∀ c ∈ l, p c = false) :
    fields p (unlines s ls) = ls := by
  induction ls with
  | nil => rfl
  | cons l ls ih =>
    obtain ⟨hl, hls⟩ := List.forall_mem_cons.mp h
    rw [unlines_cons, fields_append_cons hl hs, ih hls]

/-- The columns of a line of two. -/
theorem splitOnP_pair (hs : p s) {a b : List α} (ha : ∀ c ∈ a, p c = false)
    (hb : ∀ c ∈ b, p c = false) : (a ++ s :: b).splitOnP p = [a, b] := by
  rw [List.splitOnP_append_cons a b hs, List.splitOnP_eq_singleton ha,
    List.splitOnP_eq_singleton hb, List.singleton_append]

/-! ### Sorted tables -/

section Sorted

variable {l l' : List α} {a : α} {q : α → Bool}

/-- The first of a kind in a sorted list is the least of that kind. -/
theorem le_of_find? (hle : l.Pairwise fun x y => le x y) (hrefl : ∀ x, le x x)
    (hfind : l.find? q = some a) : ∀ b ∈ l, q b → le a b := by
  obtain ⟨-, pre, post, rfl, hpre⟩ := List.find?_eq_some_iff_append.mp hfind
  intro b hb hq
  rcases List.mem_append.mp hb with hb | hb
  · have hnot := hpre b hb
    rw [hq] at hnot
    exact absurd hnot (by decide)
  · rcases List.mem_cons.mp hb with rfl | hb
    · exact hrefl b
    · exact List.rel_of_pairwise_cons (List.pairwise_append.mp hle).2.1 hb

/-- **The first of a kind** in the sorted list: the least of that kind, and none only where there is
none. -/
theorem find?_mergeSort (htrans : ∀ x y z, le x y → le y z → le x z)
    (htotal : ∀ x y, le x y || le y x) :
    (∀ a, (l.mergeSort le).find? q = some a → a ∈ l ∧ q a ∧ ∀ b ∈ l, q b → le a b) ∧
      ((l.mergeSort le).find? q = none ↔ ∀ b ∈ l, ¬ q b) := by
  have hmem : ∀ b, b ∈ l.mergeSort le ↔ b ∈ l := fun b => List.mem_mergeSort
  have hrefl : ∀ x, le x x := fun x => by
    have htwice := htotal x x
    rwa [Bool.or_self] at htwice
  constructor
  · intro a hfind
    refine ⟨(hmem a).mp (List.mem_of_find?_eq_some hfind), List.find?_some hfind, fun b hb => ?_⟩
    exact le_of_find? (List.pairwise_mergeSort htrans htotal l) hrefl hfind b ((hmem b).mpr hb)
  · rw [List.find?_eq_none]
    exact forall_congr' fun b => by rw [hmem b]

/-- **Sorting forgets** the order of the list. -/
theorem mergeSort_eq_of_perm (htrans : ∀ x y z, le x y → le y z → le x z)
    (htotal : ∀ x y, le x y || le y x) (hantisymm : ∀ x y, le x y → le y x → x = y)
    (hperm : l.Perm l') : l.mergeSort le = l'.mergeSort le := by
  refine List.Perm.eq_of_pairwise (fun x y _ _ => hantisymm x y)
    (List.pairwise_mergeSort htrans htotal l) (List.pairwise_mergeSort htrans htotal l') ?_
  exact (List.mergeSort_perm l le).trans (hperm.trans (List.mergeSort_perm l' le).symm)

end Sorted

end Table

end PalmaEos
