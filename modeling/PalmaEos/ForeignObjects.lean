import PalmaEos.Injections

/-!
# Foreign objects

Adding a property of an object that is not in an atomic request pulls the object into it, and the
commit may fail. So the shim is to touch only objects that the composer itself has put into the
request it commits. But what it records is not kept for each request: what is named in a request
that is assembled at the same time, or was freed without a commit, counts for the next commit.

## Main results

* `addsOwnOnly_iff` — the shim touches own objects only, exactly when no commit that injects finds
  recorded a plane of another request alone
-/

namespace PalmaEos

/-- The composer has put the object into the request. -/
def HasPut (es : List Event) (req : ℕ) (obj : UInt32) : Prop :=
  ∃ prop value, Event.addProperty req obj prop value ∈ es

/-- Every property that the shim adds to a request is of an object that the composer has put into
it before. -/
def AddsOwnOnly (libs : Libs) (es : List Event) : Prop :=
  ∀ pre e post req i, es = pre ++ e :: post →
    ((after (Shim.step libs) Shim.init pre).step libs e).2 = some (.injected req i) →
      ∀ a ∈ i.adds, HasPut pre req a.obj

/-- The shim takes a recorded object for an EPDC plane: the cache has it with both properties, or
there is room for it and the driver names both. -/
def TakenForPlane (libs : Libs) (driver : Driver) (cache : List CacheEntry) (objs : List UInt32)
    (obj : UInt32) : Prop :=
  ∃ c ∈ entryFor libs driver cache objs obj, c.HasEpdc

section Foreign

variable {libs : Libs} {env : Env} {testOnly : Bool} {es : List Event} {obj : UInt32}

theorem mem_addsFor {nRect : ℤ} {entry : Option CacheEntry} {a : Add}
    (h : a ∈ addsFor nRect obj entry) : a.obj = obj ∧ ∃ c ∈ entry, c.HasEpdc := by
  cases entry with
  | none => cases h
  | some c =>
    rw [addsFor] at h
    split_ifs at h with hepdc
    · refine ⟨?_, c, rfl, hepdc⟩
      rcases List.mem_pair.mp h with rfl | rfl
      · rfl
      · rfl
    · cases h

theorem exists_mem_addsFor {nRect : ℤ} {entry : Option CacheEntry} (h : ∃ c ∈ entry, c.HasEpdc) :
    ∃ a ∈ addsFor nRect obj entry, a.obj = obj := by
  obtain ⟨c, rfl, hepdc⟩ := h
  refine ⟨⟨obj, c.parmsProp, .parmsAddr⟩, ?_, rfl⟩
  rw [addsFor, if_pos hepdc]
  exact List.mem_cons_self

/-- **The objects that a commit touches**: the recorded ones that it takes for planes. -/
theorem exists_mem_adds_iff : (∃ a ∈ (injection libs env
      (after (Shim.step libs) Shim.init es)).adds, a.obj = obj) ↔
    obj ∈ named (sinceCommit es) ∧ TakenForPlane libs env.driver
      (after (Shim.step libs) Shim.init es).cache (named (sinceCommit es)) obj := by
  have hnodup : ((after (Shim.step libs) Shim.init es).pend.map Prod.fst).Nodup := by
    rw [after_pend_fst]
    exact nodup_named _
  rw [injection_adds hnodup, after_pend_fst]
  constructor
  · rintro ⟨a, ha, rfl⟩
    obtain ⟨o, ho, hmem⟩ := List.mem_flatMap.mp ha
    obtain ⟨hobj, hplane⟩ := mem_addsFor hmem
    rw [hobj]
    exact ⟨ho, hplane⟩
  · rintro ⟨hobj, hplane⟩
    obtain ⟨a, ha, haobj⟩ := exists_mem_addsFor hplane
    exact ⟨a, List.mem_flatMap.mpr ⟨obj, hobj, ha⟩, haobj⟩

end Foreign

/-- What is recorded since the last commit was named by one of the calls since then. -/
theorem exists_call_of_named {es : List Event} {obj : UInt32} (h : obj ∈ named es) :
    ∃ req prop value, Event.addProperty req obj prop value ∈ es := by
  obtain ⟨e, he, hobj⟩ := List.mem_filterMap.mp (List.mem_eraseDups.mp (List.mem_of_mem_take h))
  cases e with
  | addProperty req o prop value =>
    obtain rfl := Option.some.inj hobj
    exact ⟨req, prop, value, he⟩
  | commit => cases hobj
  | settle => cases hobj

/-- **When the shim touches own objects only.** In every run it does, if and only if at each commit
that injects, every call on another request since the last commit that names a recorded object
taken for an EPDC plane names one that the committed request has been given as well. -/
theorem addsOwnOnly_iff (libs : Libs) (es : List Event) : AddsOwnOnly libs es ↔
    ∀ pre req testOnly env post, es = pre ++ .commit req testOnly env :: post →
      Injects libs env testOnly (after (Shim.step libs) Shim.init pre) →
      ∀ other obj prop value, .addProperty other obj prop value ∈ sinceCommit pre → other ≠ req →
        obj ∈ named (sinceCommit pre) →
        TakenForPlane libs env.driver (after (Shim.step libs) Shim.init pre).cache
          (named (sinceCommit pre)) obj → HasPut pre req obj := by
  constructor
  · intro h pre req testOnly env post hes hinjects other obj prop value _ _ hnamed hplane
    obtain ⟨a, ha, rfl⟩ := exists_mem_adds_iff.mpr ⟨hnamed, hplane⟩
    refine h pre (.commit req testOnly env) post req _ hes ?_ a ha
    rw [step_commit_snd, if_pos hinjects]
  · intro h pre e post req i hes hstep a ha
    cases e with
    | addProperty => cases hstep
    | settle clock opens =>
      simp [Shim.step] at hstep
    | commit req' testOnly env =>
      rw [step_commit_snd] at hstep
      split_ifs at hstep with hinjects
      obtain ⟨rfl, rfl⟩ := Output.injected.inj (Option.some.inj hstep)
      obtain ⟨hnamed, hplane⟩ := exists_mem_adds_iff.mp ⟨a, ha, rfl⟩
      obtain ⟨other, prop, value, hcall⟩ := exists_call_of_named hnamed
      by_cases hother : other = req'
      · subst hother
        exact ⟨prop, value, (List.rtakeWhile_suffix _ _).subset hcall⟩
      · exact h pre req' testOnly env post hes hinjects other a.obj prop value hcall hother hnamed
          hplane

/-! ### A foreign plane -/

/-- A driver whose objects 5 and 7 are EPDC planes. -/
def twoPlanes : Driver := fun obj =>
  if obj = 5 ∨ obj = 7 then
    some [some ⟨17, "FB_ID"⟩, some ⟨20, "EPDC_UPDATE_PARMS_ADDR"⟩, some ⟨21, "EPDC_UPDATE_CNT"⟩]
  else none

/-- Request 1, with plane 7, is freed without a commit; then request 2, with plane 5, is
committed. -/
theorem not_addsOwnOnly_freed : ¬ AddsOwnOnly Libs.all
    [.addProperty 1 7 17 100, .addProperty 2 5 17 101,
      .commit 2 false { Env.bare Tunables.init 1000 with driver := twoPlanes }] := by
  intro h
  have hput := h [.addProperty 1 7 17 100, .addProperty 2 5 17 101] _ [] 2 _ rfl
    (by rw [step_commit_snd, if_pos (by decide)]) ⟨7, 20, .parmsAddr⟩ (by decide)
  obtain ⟨prop, value, hmem⟩ := hput
  simp at hmem

end PalmaEos
