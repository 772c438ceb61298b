import Mathlib.Data.List.Induction
import Mathlib.Data.List.Nodup
import Mathlib.Data.List.Perm.Subperm

/-!
# Distinct elements in order

A table that takes up new elements at its end while there is room holds, after a list of insertions,
the first `n` distinct elements of the list: `xs.eraseDups.take n`.

## Main results

* `take_eraseDups_concat` — one insertion
* `length_lt_of_new` — a table without repetition has room for an element that it does not have
-/

namespace PalmaEos

variable {α : Type*} [DecidableEq α]

theorem eraseDups_concat (xs : List α) (x : α) :
    (xs ++ [x]).eraseDups = if x ∈ xs then xs.eraseDups else xs.eraseDups ++ [x] := by
  rw [List.eraseDups_append]
  by_cases hmem : x ∈ xs
  · rw [if_pos hmem]
    simp [List.removeAll, hmem]
  · rw [if_neg hmem]
    simp [List.removeAll, hmem, List.eraseDups_cons]

theorem nodup_eraseDups (xs : List α) : xs.eraseDups.Nodup := by
  induction xs using List.reverseRecOn with
  | nil => exact List.nodup_nil
  | append_singleton xs x ih =>
    rw [eraseDups_concat]
    split_ifs with hmem
    · exact ih
    · refine List.nodup_append.mpr ⟨ih, List.nodup_singleton x, ?_⟩
      rintro y hy z hz rfl
      rw [List.mem_singleton.mp hz] at hy
      exact hmem (List.mem_eraseDups.mp hy)

/-- **One insertion**: an element is taken up when it is new and there is room. -/
theorem take_eraseDups_concat (n : ℕ) (xs : List α) (x : α) :
    (xs ++ [x]).eraseDups.take n =
      if x ∈ xs.eraseDups.take n then xs.eraseDups.take n
      else if (xs.eraseDups.take n).length < n then xs.eraseDups.take n ++ [x]
      else xs.eraseDups.take n := by
  rw [eraseDups_concat]
  by_cases hroom : xs.eraseDups.length < n
  · have hall : xs.eraseDups.take n = xs.eraseDups := List.take_of_length_le (Nat.le_of_lt hroom)
    have hlt : (xs.eraseDups.take n).length < n := by rwa [hall]
    rw [if_pos hlt, hall]
    by_cases hmem : x ∈ xs
    · rw [if_pos hmem, if_pos (List.mem_eraseDups.mpr hmem), hall]
    · rw [if_neg hmem, if_neg (mt List.mem_eraseDups.mp hmem), List.take_of_length_le]
      rw [List.length_append, List.length_singleton]
      omega
  · have hfull : ¬ (xs.eraseDups.take n).length < n := by
      rw [List.length_take]
      omega
    rw [if_neg hfull, ite_self]
    split_ifs
    · rfl
    · exact List.take_append_of_le_length (Nat.le_of_not_lt hroom)

/-- A table without repetition, of elements of a list with at most `n` distinct ones, has room for
one that it does not have. -/
theorem length_lt_of_new {n : ℕ} {table xs : List α} {x : α} (htable : table.Nodup)
    (hsub : ∀ y ∈ table, y ∈ xs) (hfew : xs.eraseDups.length ≤ n) (hx : x ∈ xs)
    (hnew : x ∉ table) : table.length < n := by
  have hcons : (x :: table).Nodup := List.nodup_cons.mpr ⟨hnew, htable⟩
  have hsub' : (x :: table) ⊆ xs.eraseDups := by
    intro y hy
    rw [List.mem_eraseDups]
    rcases List.mem_cons.mp hy with rfl | hmem
    · exact hx
    · exact hsub y hmem
  have hle := (List.subperm_of_subset hcons hsub').length_le
  rw [List.length_cons] at hle
  omega

end PalmaEos
