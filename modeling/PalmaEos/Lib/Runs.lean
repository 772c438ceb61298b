import Mathlib.Data.List.Induction

/-!
# Runs of a machine with outputs

A machine takes one event at a time and may emit an output: `step s e` is the next state and the
output, if any. `after` is the state that a list of events leads to and `outputs` what it emits.

A property of a run is a property of its steps. `Along P` says that `P` holds at every step, of the
outputs emitted before it, the state it is taken in and the event. `run_inv` is the induction:
an invariant of outputs and state that every step keeps, where `P` holds, holds at the end.

## Main results

* `run_inv`, `run_inv_iff` — invariants of whole runs
* `after_eq_lastFound` — a variable holds what was last found for it
* `along_append` — splitting a run
* `after_filter_rel` — two runs, one with some of the events left out
-/

namespace PalmaEos

variable {σ ε ω α : Type*}

/-- The state after a list of events. -/
def after (step : σ → ε → σ × Option ω) : σ → List ε → σ
  | s, [] => s
  | s, e :: es => after step (step s e).1 es

/-- What a list of events emits. -/
def outputs (step : σ → ε → σ × Option ω) : σ → List ε → List ω
  | _, [] => []
  | s, e :: es => (step s e).2.toList ++ outputs step (step s e).1 es

/-- `P` holds at every step of the run, given what was emitted before the run. -/
def Along (step : σ → ε → σ × Option ω) (P : List ω → σ → ε → Prop) : List ω → σ → List ε → Prop
  | _, _, [] => True
  | outs, s, e :: es => P outs s e ∧ Along step P (outs ++ (step s e).2.toList) (step s e).1 es

/-- What `f` found last in the run, at a state and the event taken in it. -/
def lastFound (step : σ → ε → σ × Option ω) (f : σ → ε → Option α) : σ → List ε → Option α
  | _, [] => none
  | s, e :: es => (lastFound step f (step s e).1 es).or (f s e)

section Runs

variable {step : σ → ε → σ × Option ω} {P Q : List ω → σ → ε → Prop} {Inv : List ω → σ → Prop}

theorem after_append (s : σ) (es es' : List ε) :
    after step s (es ++ es') = after step (after step s es) es' := by
  induction es generalizing s with
  | nil => rfl
  | cons e es ih => exact ih _

theorem outputs_append (s : σ) (es es' : List ε) :
    outputs step s (es ++ es') = outputs step s es ++ outputs step (after step s es) es' := by
  induction es generalizing s with
  | nil => rfl
  | cons e es ih => rw [List.cons_append, outputs, ih, outputs, after, List.append_assoc]

theorem outputs_singleton (s : σ) (e : ε) : outputs step s [e] = (step s e).2.toList := by
  rw [outputs, outputs, List.append_nil]

theorem along_append {outs : List ω} {s : σ} {es es' : List ε} :
    Along step P outs s (es ++ es') ↔
      Along step P outs s es ∧ Along step P (outs ++ outputs step s es) (after step s es) es' := by
  induction es generalizing outs s with
  | nil => rw [List.nil_append, outputs, List.append_nil, after, Along, true_and]
  | cons e es ih =>
    rw [List.cons_append, Along, ih, Along, and_assoc, outputs, List.append_assoc, after]

/-- **Invariants of runs.** What every step keeps holds at the end. -/
theorem run_inv (hstep : ∀ outs s e, Inv outs s → P outs s e →
      Inv (outs ++ (step s e).2.toList) (step s e).1) {outs : List ω} {s : σ} {es : List ε}
    (h : Inv outs s) (hes : Along step P outs s es) :
    Inv (outs ++ outputs step s es) (after step s es) := by
  induction es generalizing outs s with
  | nil =>
    rw [outputs, List.append_nil]
    exact h
  | cons e es ih =>
    rw [outputs, ← List.append_assoc]
    exact ih (hstep outs s e h hes.1) hes.2

/-- **When an invariant holds all along.** If a step keeps the invariant exactly where `P` holds,
every state of a run has the invariant exactly if `P` holds at every step. -/
theorem run_inv_iff (hstep : ∀ outs s e, Inv outs s →
      (Inv (outs ++ (step s e).2.toList) (step s e).1 ↔ P outs s e)) {outs : List ω} {s : σ}
    {es : List ε} (h : Inv outs s) :
    (∀ pre, pre <+: es → Inv (outs ++ outputs step s pre) (after step s pre)) ↔
      Along step P outs s es := by
  induction es generalizing outs s with
  | nil =>
    refine iff_of_true (fun pre hpre => ?_) trivial
    rw [List.prefix_nil.mp hpre, outputs, List.append_nil]
    exact h
  | cons e es ih =>
    constructor
    · intro hall
      have hnext := hall [e] (List.prefix_append [e] es)
      rw [outputs_singleton] at hnext
      refine ⟨(hstep outs s e h).mp hnext, (ih hnext).mp fun pre hpre => ?_⟩
      have hlater := hall (e :: pre) ((List.prefix_cons_inj e).mpr hpre)
      rwa [outputs, ← List.append_assoc] at hlater
    · rintro ⟨hfirst, hrest⟩ pre hpre
      cases pre with
      | nil =>
        rw [outputs, List.append_nil]
        exact h
      | cons e' pre =>
        obtain ⟨rfl, hshorter⟩ := List.cons_prefix_cons.mp hpre
        rw [outputs, ← List.append_assoc]
        exact (ih ((hstep outs s e' h).mpr hfirst)).mpr hrest pre hshorter

/-- What holds at every step, by the steps before each one. -/
theorem along_iff {outs : List ω} {s : σ} {es : List ε} : Along step P outs s es ↔
    ∀ pre e post, es = pre ++ e :: post → P (outs ++ outputs step s pre) (after step s pre) e := by
  induction es generalizing outs s with
  | nil => exact iff_of_true trivial fun pre e post hes => by simp at hes
  | cons e es ih =>
    rw [Along, ih]
    constructor
    · rintro ⟨hfirst, hrest⟩ pre e' post hes
      cases pre with
      | nil =>
        obtain ⟨rfl, -⟩ := List.cons.inj hes
        rw [outputs, List.append_nil]
        exact hfirst
      | cons e₁ pre =>
        obtain ⟨rfl, rfl⟩ := List.cons.inj hes
        rw [outputs, ← List.append_assoc]
        exact hrest pre e' post rfl
    · intro h
      refine ⟨?_, fun pre e' post hes => ?_⟩
      · have hfirst := h [] e es rfl
        rwa [outputs, List.append_nil] at hfirst
      · have hlater := h (e :: pre) e' post (by rw [hes]; rfl)
        rwa [outputs, ← List.append_assoc] at hlater

/-- **What a variable remembers.** A variable that every step sets to what `f` finds, when it finds
anything, holds what was found last. -/
theorem after_eq_lastFound_of_along {f : σ → ε → Option α} {g : σ → α}
    (h : ∀ outs s e, P outs s e → g (step s e).1 = (f s e).getD (g s)) {outs : List ω} {s : σ}
    {es : List ε} (hes : Along step P outs s es) :
    g (after step s es) = (lastFound step f s es).getD (g s) := by
  induction es generalizing outs s with
  | nil => rfl
  | cons e es ih =>
    rw [after, ih hes.2, lastFound, h outs s e hes.1]
    cases lastFound step f (step s e).1 es with
    | none => rfl
    | some a => rfl

theorem after_eq_lastFound {f : σ → ε → Option α} {g : σ → α}
    (h : ∀ s e, g (step s e).1 = (f s e).getD (g s)) (s : σ) (es : List ε) :
    g (after step s es) = (lastFound step f s es).getD (g s) := by
  have hes : Along step (fun _ _ _ => True) [] s es := along_iff.mpr fun _ _ _ _ => trivial
  exact after_eq_lastFound_of_along (fun _ s e _ => h s e) hes

theorem lastFound_map {β : Type*} (f : σ → ε → Option α) (k : α → β) (s : σ) (es : List ε) :
    lastFound step (fun s e => (f s e).map k) s es = (lastFound step f s es).map k := by
  induction es generalizing s with
  | nil => rfl
  | cons e es ih =>
    rw [lastFound, lastFound, ih]
    cases lastFound step f (step s e).1 es with
    | none => rfl
    | some a => rfl

/-- What all outputs of a run satisfy, step by step. -/
theorem forall_outputs_iff {Q : ω → Prop} {outs : List ω} {s : σ} {es : List ε} :
    (∀ o ∈ outputs step s es, Q o) ↔
      Along step (fun _ s e => ∀ o ∈ (step s e).2, Q o) outs s es := by
  induction es generalizing outs s with
  | nil => exact iff_of_true nofun trivial
  | cons e es ih =>
    rw [outputs, List.forall_mem_append, Along, ← ih]
    exact and_congr_left fun _ => by simp

/-- What the whole trace of a run satisfies, every part from its start does. -/
theorem along_outputs {Q : List ω → Prop} (hQ : ∀ l l', Q (l ++ l') → Q l) {outs : List ω} {s : σ}
    {es : List ε} (h : Q (outs ++ outputs step s es)) :
    Along step (fun outs s e => Q (outs ++ (step s e).2.toList)) outs s es := by
  induction es generalizing outs s with
  | nil => trivial
  | cons e es ih =>
    rw [outputs, ← List.append_assoc] at h
    exact ⟨hQ _ _ h, ih h⟩

/-- A bound on all the outputs of a run holds at every step. -/
theorem along_length_lt {n : ℕ} {outs : List ω} {s : σ} {es : List ε}
    (h : (outs ++ outputs step s es).length < n) :
    Along step (fun outs s e => (outs ++ (step s e).2.toList).length < n) outs s es := by
  refine along_outputs (Q := fun l => l.length < n) (fun l l' hl => ?_) h
  rw [List.length_append] at hl
  omega

/-- Two conditions that agree wherever an invariant holds agree along a run. -/
theorem along_congr
    (hstep : ∀ outs s e, Inv outs s → Inv (outs ++ (step s e).2.toList) (step s e).1)
    (hPQ : ∀ outs s e, Inv outs s → (P outs s e ↔ Q outs s e)) {outs : List ω} {s : σ} {es : List ε}
    (h : Inv outs s) : Along step P outs s es ↔ Along step Q outs s es := by
  induction es generalizing outs s with
  | nil => exact Iff.rfl
  | cons e es ih => exact and_congr (hPQ outs s e h) (ih (hstep outs s e h))

theorem along_and {outs : List ω} {s : σ} {es : List ε} (h : Along step P outs s es)
    (h' : Along step Q outs s es) :
    Along step (fun outs s e => P outs s e ∧ Q outs s e) outs s es := by
  induction es generalizing outs s with
  | nil => trivial
  | cons e es ih => exact ⟨⟨h.1, h'.1⟩, ih h.2 h'.2⟩

/-- **Two runs, one with some of the events left out.** A relation of their states holds at the end
when every step that both take keeps it, and every step that only the first takes. -/
theorem after_filter_rel {R : σ → σ → Prop} {keep : ε → Bool} {s s' : σ} {es : List ε}
    (hinit : R s s')
    (hboth : ∀ pre e, pre ++ [e] <+: es → keep e = true →
      R (after step s pre) (after step s' (pre.filter keep)) →
        R (step (after step s pre) e).1 (step (after step s' (pre.filter keep)) e).1)
    (hfirst : ∀ pre e, pre ++ [e] <+: es → keep e = false →
      R (after step s pre) (after step s' (pre.filter keep)) →
        R (step (after step s pre) e).1 (after step s' (pre.filter keep))) :
    R (after step s es) (after step s' (es.filter keep)) := by
  induction es using List.reverseRecOn with
  | nil => exact hinit
  | append_singleton es e ih =>
    have hes : es <+: es ++ [e] := List.prefix_append es [e]
    have hbefore := ih (fun pre e' hpre => hboth pre e' (hpre.trans hes))
      fun pre e' hpre => hfirst pre e' (hpre.trans hes)
    rw [after_append, List.filter_append]
    cases hkeep : keep e with
    | true =>
      rw [List.filter_cons_of_pos hkeep, List.filter_nil, after_append]
      exact hboth es e (List.prefix_refl _) hkeep hbefore
    | false =>
      rw [List.filter_cons_of_neg (by simp [hkeep]), List.filter_nil, List.append_nil]
      exact hfirst es e (List.prefix_refl _) hkeep hbefore

end Runs

/-! ### Obligations -/

/-- An entry of the trace has incurred `a` and none after it has discharged `a`. -/
def Owed (incurs discharges : ω → α → Prop) (trace : List ω) (a : α) : Prop :=
  ∃ pre o post, trace = pre ++ o :: post ∧ incurs o a ∧ ∀ o' ∈ post, ¬ discharges o' a

section Owed

variable {incurs discharges : ω → α → Prop} {trace : List ω} {o : ω} {a : α}

theorem not_owed_nil : ¬ Owed incurs discharges [] a := by
  rintro ⟨pre, o, post, h, -⟩
  simp at h

/-- What is owed after one more entry. -/
theorem owed_concat : Owed incurs discharges (trace ++ [o]) a ↔
    incurs o a ∨ Owed incurs discharges trace a ∧ ¬ discharges o a := by
  constructor
  · rintro ⟨pre, o', post, h, hincurs, hpost⟩
    rcases post.eq_nil_or_concat with rfl | ⟨post, o'', rfl⟩
    · obtain ⟨-, rfl⟩ := List.append_singleton_inj.mp h
      exact Or.inl hincurs
    · rw [List.concat_eq_append, ← List.cons_append, ← List.append_assoc] at h
      rw [List.concat_eq_append] at hpost
      obtain ⟨rfl, rfl⟩ := List.append_singleton_inj.mp h
      refine Or.inr ⟨⟨pre, o', post, rfl, hincurs, fun p hp => ?_⟩, ?_⟩
      · exact hpost p (List.mem_append_left _ hp)
      · exact hpost o (List.mem_append_right _ (List.mem_singleton.mpr rfl))
  · rintro (hincurs | ⟨⟨pre, o', post, rfl, hincurs, hpost⟩, hkeeps⟩)
    · exact ⟨trace, o, [], rfl, hincurs, nofun⟩
    · refine ⟨pre, o', post ++ [o], by simp, hincurs, ?_⟩
      intro o'' ho''
      rcases List.mem_append.mp ho'' with hmem | hmem
      · exact hpost o'' hmem
      · rw [List.mem_singleton.mp hmem]
        exact hkeeps

end Owed

end PalmaEos
