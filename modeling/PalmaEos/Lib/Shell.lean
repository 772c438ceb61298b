import Mathlib.Data.List.Basic

/-!
# Scripts under `set -e`

A script runs commands one after the other and decides by what they give back. What that is, an
exit status and an output, is up to the world and may depend on all that has happened before.

Under `set -e` a plain command that fails ends the script with its status, wherever it stands, also
inside a function. A command with `|| …` behind it does not.

## Main results

* `Script.run_bind` — a run goes on where the first part has finished
* `Script.run_plain`, `Script.run_orElse` — the two ways of running a command
-/

namespace PalmaEos

universe u

/-- What a command gives back. -/
structure Reply where
  status : ℕ
  output : List UInt8

/-- What has happened: the commands and what they gave back. -/
abbrev History (γ : Type*) := List (γ × Reply)

/-- The world answers a command, after what has happened. -/
abbrev World (γ : Type*) := History γ → γ → Reply

/-- A script. -/
inductive Script (γ : Type*) (α : Type*)
  | ret (a : α)
  | exit (status : ℕ)
  | call (c : γ) (next : Reply → Script γ α)

/-- How a script ends. -/
inductive Ending (α : Type*)
  | finished (a : α)
  | exited (status : ℕ)
  deriving DecidableEq

variable {γ : Type*} {α β : Type u}

/-- What has happened after one more command. -/
def History.after (w : World γ) (h : History γ) (c : γ) : History γ := h ++ [(c, w h c)]

namespace Script

def bind : Script γ α → (α → Script γ β) → Script γ β
  | ret a, k => k a
  | exit status, _ => exit status
  | call c next, k => call c fun r => (next r).bind k

instance : Monad (Script γ) where
  pure := ret
  bind := bind

/-- How the script ends in the world, and what has happened by then. -/
def run (w : World γ) (h : History γ) : Script γ α → Ending α × History γ
  | ret a => (.finished a, h)
  | exit status => (.exited status, h)
  | call c next => (next (w h c)).run w (h.after w c)

/-- A plain command. -/
def plain (c : γ) : Script γ Reply :=
  call c fun r => if r.status = 0 then ret r else exit r.status

/-- `c || handler` -/
def orElse (c : γ) (handler : Script γ Unit) : Script γ Unit :=
  call c fun r => if r.status = 0 then ret () else handler

/-- `c || true` -/
def orTrue (c : γ) : Script γ Unit := orElse c (ret ())

section Run

variable {w : World γ} {h : History γ}

/-- **A run goes on** where the first part has finished, and ends where it has exited. -/
theorem run_bind (p : Script γ α) (k : α → Script γ β) : (p >>= k).run w h =
    match p.run w h with
    | (.finished a, h') => (k a).run w h'
    | (.exited status, h') => (.exited status, h') := by
  change (p.bind k).run w h = _
  induction p generalizing h with
  | ret a => rfl
  | exit status => rfl
  | call c next ih => exact ih (w h c)

theorem run_plain (c : γ) : (plain c).run w h =
    if (w h c).status = 0 then (.finished (w h c), h.after w c)
    else (.exited (w h c).status, h.after w c) := by
  rw [plain, run]
  split_ifs <;> rfl

theorem run_orElse (c : γ) (handler : Script γ Unit) : (orElse c handler).run w h =
    if (w h c).status = 0 then (.finished (), h.after w c) else handler.run w (h.after w c) := by
  rw [orElse, run]
  split_ifs <;> rfl

/-- A command whose failure is ignored. -/
theorem run_orTrue (c : γ) : (orTrue c).run w h = (.finished (), h.after w c) := by
  rw [orTrue, run_orElse, run, ite_self]

end Run

end Script

end PalmaEos
