import Mathlib.Data.List.Induction
import Mathlib.Logic.Function.Basic

/-!
# Tables filled at first use

A table remembers, for each key, what the first use of the key found; later uses get that answer
back without looking again. Only a reset of the whole table takes an entry out. So the table says
what was found at the first use since the last reset, whatever has become of the key in between.

## Main results

* `table_eq_firstUse` — what such a table holds
-/

namespace PalmaEos

namespace Memo

/-- A reset of the table, or a use of a key that would find `a` if it looked. -/
inductive Op (κ α : Type*)
  | reset
  | use (k : κ) (a : α)

variable {κ α : Type*}

/-- The uses since the last reset. -/
def sinceReset (ops : List (Op κ α)) : List (κ × α) :=
  ops.foldl (fun uses op => match op with
    | .reset => []
    | .use k a => uses ++ [(k, a)]) []

variable [DecidableEq κ]

/-- The table after one operation. -/
def step (table : κ → Option α) : Op κ α → κ → Option α
  | .reset => fun _ => none
  | .use k a => Function.update table k ((table k).or (some a))

/-- The table after some operations. -/
def table (ops : List (Op κ α)) : κ → Option α := ops.foldl step fun _ => none

/-- What the first use of a key since the last reset found. -/
def firstUse (ops : List (Op κ α)) (k : κ) : Option α :=
  ((sinceReset ops).find? (·.1 = k)).map Prod.snd

theorem table_append (ops ops' : List (Op κ α)) :
    table (ops ++ ops') = ops'.foldl step (table ops) := List.foldl_append

theorem table_reset (ops : List (Op κ α)) : table (ops ++ [.reset]) = fun _ => none := by
  rw [table_append]
  rfl

theorem table_use (ops : List (Op κ α)) (k : κ) (a : α) :
    table (ops ++ [.use k a]) = Function.update (table ops) k ((table ops k).or (some a)) := by
  rw [table_append]
  rfl

/-- **The table holds the first uses.** -/
theorem table_eq_firstUse (ops : List (Op κ α)) (k : κ) : table ops k = firstUse ops k := by
  induction ops using List.reverseRecOn with
  | nil => rfl
  | append_singleton ops op ih =>
    rw [table_append, firstUse, sinceReset, List.foldl_append, ← sinceReset]
    cases op with
    | reset => rfl
    | use k' a =>
      dsimp only [List.foldl_cons, List.foldl_nil, step]
      rw [List.find?_append, Option.map_or, ← firstUse, ← ih]
      by_cases hk : k = k'
      · subst hk
        rw [Function.update_self, List.find?_cons_of_pos (by simp), Option.map_some]
      · rw [Function.update_of_ne hk, List.find?_cons_of_neg (by simpa using Ne.symm hk),
          List.find?_nil, Option.map_none, Option.or_none]

theorem firstUse_use (ops : List (Op κ α)) (k : κ) (a : α) :
    firstUse (ops ++ [.use k a]) k = some ((firstUse ops k).getD a) := by
  rw [← table_eq_firstUse, ← table_eq_firstUse, table_use, Function.update_self, Option.or_some]

end Memo

end PalmaEos
