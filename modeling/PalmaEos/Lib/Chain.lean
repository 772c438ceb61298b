import Mathlib.Computability.StateTransition
import Mathlib.Data.Fintype.Card
import Mathlib.Data.Set.Finite.Basic
import Mathlib.Order.WellFounded

/-!
# Chains of steps

A step function `f : α → Option α` takes an element to the next one or stops. From a start it runs
through one chain, which stops somewhere or goes on for ever. Where only finitely many elements have
a successor it goes on for ever exactly when it comes back to an element it has been at.

`Reaches` and `Reaches₁` are Mathlib's. A loop of a program that follows the steps with a counter
of iterations ends exactly when its chain does (`exists_fuel_iff`), whatever it collects on the way.

## Main results

* `stops_iff_not_comesBack` — the only way not to stop
* `exists_fuel_iff` — loops and chains
-/

namespace PalmaEos

namespace Chain

open Relation
open StateTransition (Reaches Reaches₁ reaches_total reaches₁_fwd)

variable {α : Type*} {f : α → Option α} {a b : α}

/-- The chain from `a` stops. -/
def Stops (f : α → Option α) (a : α) : Prop := ∃ b, Reaches f a b ∧ f b = none

/-- The chain from `a` comes back to an element. -/
def ComesBack (f : α → Option α) (a : α) : Prop := ∃ b, Reaches f a b ∧ Reaches₁ f b b

theorem stops_of_none (h : f a = none) : Stops f a := ⟨a, ReflTransGen.refl, h⟩

theorem stops_iff_of_some (h : f a = some b) : Stops f a ↔ Stops f b := by
  constructor
  · rintro ⟨c, hac, hc⟩
    rcases ReflTransGen.cases_head hac with rfl | ⟨b', hb', hrest⟩
    · simp [h] at hc
    · obtain rfl := Option.some.inj (h.symm.trans hb')
      exact ⟨c, hrest, hc⟩
  · rintro ⟨c, hbc, hc⟩
    exact ⟨c, ReflTransGen.head h hbc, hc⟩

/-- What an element of a cycle leads to is on the cycle. -/
theorem reaches₁_self (hcycle : Reaches₁ f a a) (h : Reaches f a b) : Reaches₁ f b b := by
  induction h with
  | refl => exact hcycle
  | tail _ hstep ih => exact TransGen.tail' (reaches₁_fwd ih hstep) hstep

/-- A chain that stops does not come back. -/
theorem Stops.not_comesBack (h : Stops f a) : ¬ ComesBack f a := by
  obtain ⟨b, hb, hnone⟩ := h
  rintro ⟨c, hc, hcycle⟩
  have hleaves : ∀ d, ¬ Reaches₁ f b d := by
    intro d hd
    obtain ⟨e, he, -⟩ := TransGen.head'_iff.mp hd
    rw [Option.mem_def, hnone] at he
    cases he
  rcases reaches_total hb hc with hbc | hcb
  · rcases reflTransGen_iff_eq_or_transGen.mp hbc with rfl | hbc
    · exact hleaves _ hcycle
    · exact hleaves _ hbc
  · exact hleaves _ (reaches₁_self hcycle hcb)

/-- **The only way not to stop** is to come back, where finitely many elements have a successor. -/
theorem stops_iff_not_comesBack (hfinite : {b | (f b).isSome}.Finite) :
    Stops f a ↔ ¬ ComesBack f a := by
  refine ⟨Stops.not_comesBack, fun hno => ?_⟩
  rcases hfirst : f a with _ | a'
  · exact stops_of_none hfirst
  -- the elements of the chain that have a successor, later ones below earlier ones
  let S := {b | Reaches f a b ∧ (f b).isSome}
  have : Finite S := (hfinite.subset fun b hb => hb.2).to_subtype
  let later : S → S → Prop := fun x y => Reaches₁ f y.1 x.1
  have htrans : IsTrans S later := ⟨fun x y z hxy hyz => TransGen.trans hyz hxy⟩
  have hirrefl : Std.Irrefl later := ⟨fun x hx => hno ⟨x.1, x.2.1, hx⟩⟩
  obtain ⟨last, -, hlast⟩ := (Finite.wellFounded_of_trans_of_irrefl later).has_min Set.univ
    ⟨⟨a, ReflTransGen.refl, by rw [hfirst]; rfl⟩, trivial⟩
  obtain ⟨b, hb⟩ := Option.isSome_iff_exists.mp last.2.2
  refine ⟨b, last.2.1.tail hb, Option.not_isSome_iff_eq_none.mp fun hsome => ?_⟩
  exact hlast ⟨b, last.2.1.tail hb, hsome⟩ trivial (TransGen.single hb)

/-- A chain of ever greater elements does not come back. -/
theorem not_comesBack_of_lt [Preorder α] (h : ∀ b c, Reaches f a b → f b = some c → b < c) :
    ¬ ComesBack f a := by
  rintro ⟨b, hab, hcycle⟩
  have hlt : ∀ c, Reaches₁ f b c → b < c := by
    intro c hc
    induction hc with
    | single hstep => exact h _ _ hab hstep
    | tail hpath hstep ih => exact ih.trans (h _ _ (hab.trans hpath.to_reflTransGen) hstep)
  exact lt_irrefl b (hlt b hcycle)

/-- A chain that stops early comes back only where the longer one does. -/
theorem ComesBack.mono {g : α → Option α} (hfg : ∀ b c, f b = some c → g b = some c)
    (h : ComesBack f a) : ComesBack g a := by
  obtain ⟨b, hab, hcycle⟩ := h
  exact ⟨b, hab.lift id fun c d hstep => hfg c d hstep,
    hcycle.lift id fun c d hstep => hfg c d hstep⟩

/-- **Loops and chains.** A loop that runs out of fuel with `stuck`, that ends where the chain does,
and else goes on with the next element, ends with some fuel exactly when the chain stops. -/
theorem exists_fuel_iff {β γ : Type*} {stuck : β} (loop : ℕ → α → γ → β)
    (hzero : ∀ b c, loop 0 b c = stuck) (hstop : ∀ n b c, f b = none → loop (n + 1) b c ≠ stuck)
    (hstep : ∀ b b' c, f b = some b' → ∃ c', ∀ n, loop (n + 1) b c = loop n b' c') (c : γ) :
    (∃ n, loop n a c ≠ stuck) ↔ Stops f a := by
  constructor
  · rintro ⟨n, hn⟩
    induction n generalizing a c with
    | zero => exact absurd (hzero a c) hn
    | succ n ih =>
      rcases hf : f a with _ | b
      · exact stops_of_none hf
      · obtain ⟨c', hc'⟩ := hstep a b c hf
        rw [hc' n] at hn
        exact (stops_iff_of_some hf).mpr (ih c' hn)
  · rintro ⟨b, hab, hnone⟩
    induction hab using ReflTransGen.head_induction_on generalizing c with
    | refl => exact ⟨1, hstop 0 b c hnone⟩
    | head hnext _ ih =>
      obtain ⟨c', hc'⟩ := hstep _ _ c hnext
      obtain ⟨n, hn⟩ := ih c'
      exact ⟨n + 1, by rwa [hc' n]⟩

end Chain

end PalmaEos
