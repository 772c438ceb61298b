import Mathlib.Data.List.Basic
import Mathlib.Data.List.Forall2

/-!
# Computations that may fail

Inversion for programs in `Except`: from the fact that a program returned, what each of its steps
returned. A proof about a long `do` block peels it apart with these and never unfolds the monad.

## Main results

* `bind_eq_ok` — the steps of a sequence
* `guard_eq_ok` — a check that was passed
* `mapM_eq_map`, `mapM_eq_ok` — a loop that collects
-/

namespace PalmaEos

universe u v

variable {ε : Type u} {α β : Type v}

theorem bind_eq_ok {x : Except ε α} {f : α → Except ε β} {b : β} :
    (x >>= f) = .ok b ↔ ∃ a, x = .ok a ∧ f a = .ok b := by
  cases x with
  | error e => exact ⟨fun h => (nomatch h), fun ⟨_, h, _⟩ => (nomatch h)⟩
  | ok a => exact ⟨fun h => ⟨a, rfl, h⟩, fun ⟨_, h, hf⟩ => Except.ok.inj h ▸ hf⟩

theorem pure_eq_ok {a b : α} : (pure a : Except ε α) = .ok b ↔ a = b :=
  ⟨fun h => Except.ok.inj h, fun h => congrArg _ h⟩

/-- A check that was passed. -/
theorem guard_eq_ok {p : Prop} [Decidable p] {e : ε} {x : Except ε α} {a : α} :
    (if p then .error e else x) = .ok a ↔ ¬ p ∧ x = .ok a := by
  split_ifs with h
  · exact ⟨fun hx => (nomatch hx), fun hx => absurd h hx.1⟩
  · constructor
    · intro hx
      exact ⟨h, hx⟩
    · rintro ⟨-, hx⟩
      exact hx

theorem exists_of_isOk {x : Except ε α} (h : x.isOk = true) : ∃ a, x = .ok a := by
  cases x with
  | error e => exact absurd h (by simp [Except.isOk, Except.toBool])
  | ok a => exact ⟨a, rfl⟩

/-- The results of a loop that returned, when each round that returns returns `g` of its input. -/
theorem mapM_eq_map {f : α → Except ε β} {g : α → β} :
    ∀ {xs : List α} {ys : List β}, (∀ x ∈ xs, ∀ y, f x = .ok y → y = g x) →
      xs.mapM f = .ok ys → ys = xs.map g
  | [], _, _, h => by
    rw [List.mapM_nil, pure_eq_ok] at h
    exact h.symm
  | x :: xs, _, hg, h => by
    rw [List.mapM_cons] at h
    obtain ⟨y, hy, h⟩ := bind_eq_ok.mp h
    obtain ⟨ys, hys, h⟩ := bind_eq_ok.mp h
    rw [← pure_eq_ok.mp h, List.map_cons, ← hg x List.mem_cons_self y hy,
      ← mapM_eq_map (fun z hz => hg z (List.mem_cons_of_mem _ hz)) hys]

/-- A loop that collects, each round of which returns. -/
theorem mapM_eq_ok {f : α → Except ε β} {g : α → β} :
    ∀ {xs : List α}, (∀ x ∈ xs, f x = .ok (g x)) → xs.mapM f = .ok (xs.map g)
  | [], _ => rfl
  | x :: xs, h => by
    have hrest := mapM_eq_ok fun y hy => h y (List.mem_cons_of_mem _ hy)
    rw [List.mapM_cons, h x List.mem_cons_self, hrest]
    rfl

end PalmaEos
