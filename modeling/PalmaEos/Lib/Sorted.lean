import Mathlib.Data.List.Basic

/-!
# Steps that commute can be sorted

Steps that may fail, one after the other; a run stops at the first that fails. The steps are of two
kinds, and a step of one kind commutes with a step of the other. Then a run does what the steps of
the one kind do, followed by those of the other, each in their order.

## Main results

* `runSteps_append` — runs one after the other
* `runSteps_inv` — what every step keeps
* `runSteps_sorted` — sorting a run
-/

namespace PalmaEos

variable {σ ε : Type*}

/-- The state after the steps, if none of them fails. -/
def runSteps (step : ε → σ → Option σ) : List ε → σ → Option σ
  | [], s => some s
  | e :: es, s => (step e s).bind (runSteps step es)

section Steps

variable {step : ε → σ → Option σ} {Inv : σ → Prop} {p : ε → Bool}

theorem runSteps_append (es es' : List ε) (s : σ) :
    runSteps step (es ++ es') s = (runSteps step es s).bind (runSteps step es') := by
  induction es generalizing s with
  | nil => rfl
  | cons e es ih =>
    rw [List.cons_append, runSteps, runSteps, Option.bind_assoc]
    congr 1
    funext s'
    exact ih s'

/-- What every step keeps holds after a run. -/
theorem runSteps_inv (hkeep : ∀ e s s', Inv s → step e s = some s' → Inv s') :
    ∀ {es : List ε} {s s' : σ}, Inv s → runSteps step es s = some s' → Inv s'
  | [], s, s', h, hrun => Option.some.inj hrun ▸ h
  | e :: es, s, s', h, hrun => by
    obtain ⟨t, ht, hrest⟩ := Option.bind_eq_some_iff.mp hrun
    exact runSteps_inv hkeep (hkeep e s t h ht) hrest

/-- Runs that agree wherever the invariant holds. -/
theorem bind_congr_inv {f f' : σ → Option σ} {x : Option σ} (hx : ∀ s, x = some s → Inv s)
    (h : ∀ s, Inv s → f s = f' s) : x.bind f = x.bind f' := by
  cases x with
  | none => rfl
  | some s => exact h s (hx s rfl)

variable (hkeep : ∀ e s s', Inv s → step e s = some s' → Inv s')
  (hcomm : ∀ e e' s, Inv s → p e = false → p e' = true →
    (step e s).bind (step e') = (step e' s).bind (step e))

include hkeep hcomm

/-- A step is put off until after steps of the other kind. -/
theorem runSteps_put_off {e : ε} (he : p e = false) {es : List ε} (hes : ∀ e' ∈ es, p e' = true)
    {s : σ} (h : Inv s) : runSteps step (e :: es) s = runSteps step (es ++ [e]) s := by
  induction es generalizing s with
  | nil => rfl
  | cons e' es ih =>
    obtain ⟨he', hes⟩ := List.forall_mem_cons.mp hes
    calc runSteps step (e :: e' :: es) s
        = ((step e s).bind (step e')).bind (runSteps step es) := (Option.bind_assoc ..).symm
      _ = (step e' s).bind (runSteps step (e :: es)) := by
          rw [hcomm e e' s h he he', Option.bind_assoc]
          rfl
      _ = (step e' s).bind (runSteps step (es ++ [e])) :=
          bind_congr_inv (fun t ht => hkeep e' s t h ht) fun t ht => ih hes ht

/-- **Sorting a run** into the steps of one kind and then those of the other. -/
theorem runSteps_sorted {es : List ε} {s : σ} (h : Inv s) :
    runSteps step es s = runSteps step (es.filter p ++ es.filter fun e => !p e) s := by
  induction es generalizing s with
  | nil => rfl
  | cons e es ih =>
    have hrest : runSteps step (e :: es) s
        = runSteps step (e :: (es.filter p ++ es.filter fun e => !p e)) s :=
      bind_congr_inv (fun t ht => hkeep e s t h ht) fun t ht => ih ht
    rw [hrest]
    cases he : p e with
    | true =>
      rw [List.filter_cons_of_pos he, List.filter_cons_of_neg (by simp [he]), List.cons_append]
    | false =>
      rw [List.filter_cons_of_neg (by simp [he]), List.filter_cons_of_pos (by simp [he]),
        ← List.cons_append, runSteps_append, runSteps_put_off hkeep hcomm he (by simp) h,
        ← runSteps_append, List.append_assoc, List.singleton_append]

end Steps

end PalmaEos
