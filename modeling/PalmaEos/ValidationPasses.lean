import PalmaEos.Injections

/-!
# Validation passes

A commit with `DRM_MODE_ATOMIC_TEST_ONLY` only asks whether the request would do, and is not to
drive the panel. The shim lets it pass, but it forgets what is recorded as every commit does: a
request that is validated and then committed has no recorded objects left at its real commit.

Here a run is compared with the run without its validation passes. The two states differ in what is
recorded, and in the counter of commits that decides when the tunables are read again.

## Main results

* `commitPrepared_recheck` — a real commit does not look at the counter
* `tests_invisible` — validation passes are invisible where they forget nothing that the next real
  commit would have found
-/

namespace PalmaEos

/-- The call is a validation pass. -/
def Event.tests : Event → Bool
  | .commit _ testOnly _ => testOnly
  | _ => false

/-- The run without its validation passes. -/
def untested (es : List Event) : List Event := es.filter fun e => ! e.tests

/-- The calls since the last real commit. -/
def sinceReal (es : List Event) : List Event := es.rtakeWhile fun e => ! e.commits || e.tests

/-- The properties that the shim adds in one step. -/
def added (libs : Libs) (s : Shim) (e : Event) : List Add :=
  match (s.step libs e).2 with
  | some (.injected _ i) => i.adds
  | _ => []

/-- Every real commit of the run makes the shim add the same properties, with the same values and
to the same objects, as in the run without its validation passes. -/
def TestsInvisible (libs : Libs) (es : List Event) : Prop :=
  ∀ pre req env post, es = pre ++ .commit req false env :: post →
    added libs (after (Shim.step libs) Shim.init pre) (.commit req false env)
      = added libs (after (Shim.step libs) Shim.init (untested pre)) (.commit req false env)

/-! ### The counter of commits -/

/-- The state with another value of `commits_since_recheck`. -/
def Shim.recheck (s : Shim) (c : ℕ) : Shim := { s with commitsSinceRecheck := c }

section Recheck

variable (libs : Libs) (s : Shim) (c : ℕ)

theorem attachDamage_recheck (file : DamageFile) :
    attachDamage libs file (s.recheck c) = (attachDamage libs file s).recheck c := by
  simp only [attachDamage, apply_ite fun s' => Shim.recheck s' c]
  cases file <;> rfl

theorem startSettleThread_recheck (threadStarts : Bool) :
    startSettleThread libs threadStarts (s.recheck c)
      = (startSettleThread libs threadStarts s).recheck c := by
  simp only [startSettleThread, apply_ite fun s' => Shim.recheck s' c]
  rfl

theorem lookup_recheck (driver : Driver) (obj : UInt32) : lookup libs driver obj (s.recheck c)
    = ((lookup libs driver obj s).1.recheck c, (lookup libs driver obj s).2) := by
  have hcache : (s.recheck c).cache = s.cache := rfl
  rw [lookup, lookup, hcache]
  cases s.cache.find? fun c => c.obj = obj with
  | some entry => rfl
  | none =>
    dsimp only
    by_cases hfull : MAX_OBJ ≤ s.cache.length
    · rw [if_pos hfull, if_pos hfull]
    · rw [if_neg hfull, if_neg hfull]
      cases ! libs.getObjProps || ! libs.getProp with
      | true => rfl
      | false =>
        cases driver obj with
        | none => rfl
        | some props => rfl

theorem addParms_recheck (driver : Driver) (nRect : ℤ) (pend : List (UInt32 × UInt32)) :
    addParms libs driver nRect pend (s.recheck c)
      = ((addParms libs driver nRect pend s).1.recheck c,
        (addParms libs driver nRect pend s).2) := by
  induction pend generalizing s with
  | nil => rfl
  | cons p pend ih =>
    obtain ⟨obj, fb⟩ := p
    rw [addParms_cons, addParms_cons, lookup_recheck, ih]

theorem inject_recheck (env : Env) (snap : Snapshot) (dt : ℤ) :
    inject libs env snap dt (s.recheck c)
      = ((inject libs env snap dt s).1.recheck c, (inject libs env snap dt s).2) := by
  let s' : Shim := { s with
    lastInjectMs := nowMs libs env.clock
    parms := (nextParms snap dt s).parms
    updatesSinceFull := (nextParms snap dt s).updatesSinceFull
    settlePending := true }
  have hstart : startSettleThread libs env.threadStarts (s'.recheck c)
      = (startSettleThread libs env.threadStarts s').recheck c :=
    startSettleThread_recheck libs s' c env.threadStarts
  have hadd := addParms_recheck libs (startSettleThread libs env.threadStarts s') c env.driver
    (nextParms snap dt s).n s.pend
  rw [← hstart] at hadd
  have hinject : inject libs env snap dt (s.recheck c)
      = ((addParms libs env.driver (nextParms snap dt s).n s.pend
            (startSettleThread libs env.threadStarts (s'.recheck c))).1.clearPend,
          ⟨(nextParms snap dt s).parms, (nextParms snap dt s).n,
            (addParms libs env.driver (nextParms snap dt s).n s.pend
              (startSettleThread libs env.threadStarts (s'.recheck c))).2⟩) := rfl
  rw [hinject, hadd]
  rfl

/-- **A real commit does not look at the counter.** -/
theorem commitPrepared_recheck (env : Env) : commitPrepared libs env (s.recheck c)
    = ((commitPrepared libs env s).1.recheck c, (commitPrepared libs env s).2) := by
  have hobserved : observed env (s.recheck c) = (observed env s).recheck c := rfl
  have hfires : (Fires env (s.recheck c) ∧ ¬ Throttled libs env (s.recheck c)) ↔
      (Fires env s ∧ ¬ Throttled libs env s) := Iff.rfl
  rw [commitPrepared_eq, commitPrepared_eq, hobserved, inject_recheck]
  by_cases hinjects : Fires env s ∧ ¬ Throttled libs env s
  · rw [if_pos hinjects, if_pos (hfires.mpr hinjects)]
    rfl
  · rw [if_neg hinjects, if_neg (mt hfires.mp hinjects)]
    rfl

end Recheck

/-! ### Two runs -/

/-- Two states that differ only in what is recorded, in the counter, and in tunables that nobody
looks at. -/
structure Alike (t : Tunables) (s s' : Shim) : Prop where
  same : s' = { s with
    tun := s'.tun
    commitsSinceRecheck := s'.commitsSinceRecheck
    pend := s'.pend }
  tuned : Tuned t s
  tuned' : Tuned t s'

section Alike

variable {libs : Libs} {t : Tunables} {s s' : Shim} {env : Env}

theorem Alike.addProperty (h : Alike t s s') (obj prop : UInt32) (value : UInt64) :
    Alike t (drmModeAtomicAddProperty obj prop value s)
      (drmModeAtomicAddProperty obj prop value s') := by
  refine ⟨?_, h.tuned.addProperty obj prop value, h.tuned'.addProperty obj prop value⟩
  have hsame := h.same
  generalize s'.tun = t' at hsame
  generalize s'.commitsSinceRecheck = c at hsame
  generalize s'.pend = pend at hsame
  subst hsame
  rfl

/-- A validation pass in one of the runs. -/
theorem Alike.test (h : Alike t s s') (hprops : env.props = t) :
    Alike t (drmModeAtomicCommit libs env true s).1 s' := by
  refine ⟨?_, h.tuned.commit hprops true, h.tuned'⟩
  obtain ⟨c, t', href⟩ := refreshTunables_frame s env.props
  rw [drmModeAtomicCommit, if_pos rfl, href]
  exact h.same

/-- **A real commit in both runs**, which finds the same objects recorded or does not drive the
panel. -/
theorem Alike.commit (h : Alike t s s') (hprops : env.props = t)
    (hpend : Drives env false s → s.pend = s'.pend) :
    (drmModeAtomicCommit libs env false s).2 = (drmModeAtomicCommit libs env false s').2 ∧
      Alike t (drmModeAtomicCommit libs env false s).1
        (drmModeAtomicCommit libs env false s').1 := by
  have htuned : Tuned t (drmModeAtomicCommit libs env false s).1 := h.tuned.commit hprops false
  have htuned' : Tuned t (drmModeAtomicCommit libs env false s').1 := h.tuned'.commit hprops false
  obtain ⟨c, href⟩ := h.tuned.refreshTunables_eq
  obtain ⟨c', href'⟩ := h.tuned'.refreshTunables_eq
  by_cases hdrives : Drives env false s
  · have hdrives' : Drives env false s' := by
      rw [Drives, hprops, h.tuned'.refreshed, ← h.tuned.refreshed, ← hprops]
      exact hdrives
    have hcounter : refreshTunables t s' = (refreshTunables t s).recheck c' := by
      rw [href, href', h.same, ← hpend hdrives]
      rfl
    have hcommit : drmModeAtomicCommit libs env false s'
        = ((drmModeAtomicCommit libs env false s).1.recheck c',
          (drmModeAtomicCommit libs env false s).2) := by
      rw [drmModeAtomicCommit_eq, drmModeAtomicCommit_eq, if_pos hdrives, if_pos hdrives', prepare,
        prepare, hprops, hcounter, attachDamage_recheck, commitPrepared_recheck]
    rw [hcommit] at htuned' ⊢
    exact ⟨rfl, rfl, htuned, htuned'⟩
  · have hdrives' : ¬ Drives env false s' := by
      rw [Drives, hprops, h.tuned'.refreshed, ← h.tuned.refreshed, ← hprops]
      exact hdrives
    refine ⟨?_, ?_, htuned, htuned'⟩
    · rw [drmModeAtomicCommit_eq, drmModeAtomicCommit_eq, if_neg hdrives, if_neg hdrives']
    · rw [drmModeAtomicCommit_eq, drmModeAtomicCommit_eq, if_neg hdrives, if_neg hdrives', hprops,
        href, href', h.same]
      rfl

/-- A round of the settle thread in both runs. -/
theorem Alike.settle (h : Alike t s s') (clock : ℤ) (opens : Bool) :
    Alike t (settleTick libs clock opens s).1 (settleTick libs clock opens s').1 := by
  have hrunning : s'.settleRunning = s.settleRunning := by rw [h.same]
  cases hruns : s.settleRunning with
  | false =>
    have hidle : ∀ s : Shim, s.settleRunning = false →
        (settleTick libs clock opens s).1 = s := by
      intro s hs
      rw [settleTick, hs]
      rfl
    rw [hidle s hruns, hidle s' (hrunning.trans hruns)]
    exact h
  | true =>
    have htun : s.tun = t := h.tuned.settled hruns
    have htun' : s'.tun = t := h.tuned'.settled (hrunning.trans hruns)
    refine ⟨?_, h.tuned.settle clock opens, h.tuned'.settle clock opens⟩
    have hsame : s' = { s with
        commitsSinceRecheck := s'.commitsSinceRecheck
        pend := s'.pend } := by
      refine h.same.trans ?_
      rw [htun', ← htun]
    generalize s'.commitsSinceRecheck = c at hsame
    generalize s'.pend = pend at hsame
    subst hsame
    simp only [settleTick, settleNow]
    split_ifs <;> rfl

end Alike

/-! ### What is recorded in the two runs -/

section Records

theorem untested_concat (es : List Event) (e : Event) :
    untested (es ++ [e]) = if e.tests then untested es else untested es ++ [e] := by
  rw [untested, List.filter_append]
  cases htests : e.tests with
  | true => simp [untested, htests]
  | false => simp [untested, htests]

/-- The calls since the last commit, in the run without validation passes. -/
theorem sinceCommit_untested (es : List Event) :
    sinceCommit (untested es) = untested (sinceReal es) := by
  induction es using List.reverseRecOn with
  | nil => rfl
  | append_singleton es e ih =>
    rw [untested_concat, sinceReal, List.rtakeWhile_concat, ← sinceReal]
    cases htests : e.tests with
    | true => rw [if_pos rfl, ih, Bool.or_true, if_pos rfl, untested_concat, htests, if_pos rfl]
    | false =>
      rw [if_neg (by decide), sinceCommit, List.rtakeWhile_concat, ← sinceCommit, ih, Bool.or_false]
      cases e.commits with
      | true => rfl
      | false =>
        rw [Bool.not_false, if_pos rfl, if_pos rfl, untested_concat, htests]
        rfl

/-- A validation pass records nothing. -/
theorem recorded_untested (fbid : UInt32) (es : List Event) :
    recorded fbid (untested es) = recorded fbid es := by
  induction es using List.reverseRecOn with
  | nil => rfl
  | append_singleton es e ih =>
    rw [untested_concat, recorded, recorded, List.foldl_append]
    cases htests : e.tests with
    | true =>
      cases e with
      | commit => exact ih
      | addProperty => cases htests
      | settle => cases htests
    | false =>
      rw [if_neg (by decide), List.foldl_append, ← recorded, ← recorded, ih]

end Records

/-- **Validation passes are invisible.** With fixed tunables, the shim adds the same in every real
commit of a run as in the run without its validation passes, as long as each real commit of an
enabled shim would have the same objects and framebuffers recorded if validation passes forgot
nothing. -/
theorem tests_invisible (libs : Libs) (t : Tunables) {es : List Event}
    (hprops : ∀ req testOnly env, .commit req testOnly env ∈ es → env.props = t)
    (hrecorded : ∀ pre req env post, es = pre ++ .commit req false env :: post →
      Drives env false (after (Shim.step libs) Shim.init pre) →
      recorded (after (Shim.step libs) Shim.init pre).fbidProp (sinceCommit pre)
        = recorded (after (Shim.step libs) Shim.init pre).fbidProp (sinceReal pre)) :
    TestsInvisible libs es := by
  have hinit : Alike t Shim.init Shim.init := ⟨rfl, ⟨rfl, nofun⟩, ⟨rfl, nofun⟩⟩
  -- at a real commit the two runs have the same objects recorded
  have hpend : ∀ pre req env post, es = pre ++ .commit req false env :: post →
      Alike t (after (Shim.step libs) Shim.init pre)
        (after (Shim.step libs) Shim.init (untested pre)) →
      Drives env false (after (Shim.step libs) Shim.init pre) →
      (after (Shim.step libs) Shim.init pre).pend
        = (after (Shim.step libs) Shim.init (untested pre)).pend := by
    intro pre req env post hes halike hdrives
    have hfbid : (after (Shim.step libs) Shim.init (untested pre)).fbidProp
        = (after (Shim.step libs) Shim.init pre).fbidProp := by rw [halike.same]
    rw [after_pend libs rfl, after_pend libs rfl, hrecorded pre req env post hes hdrives, hfbid,
      sinceCommit_untested, recorded_untested]
  have halike : ∀ pre, pre <+: es → Alike t (after (Shim.step libs) Shim.init pre)
      (after (Shim.step libs) Shim.init (untested pre)) := by
    intro pre hpre
    refine after_filter_rel hinit ?_ ?_
    · intro before e hbefore hkeep h
      obtain ⟨post, hpost⟩ := hbefore.trans hpre
      rw [List.append_assoc, List.singleton_append] at hpost
      cases e with
      | addProperty req obj prop value => exact h.addProperty obj prop value
      | settle clock opens => exact h.settle clock opens
      | commit req testOnly env =>
        obtain rfl : testOnly = false := by simpa [Event.tests] using hkeep
        refine (h.commit ?_ (hpend before req env post hpost.symm h)).2
        exact hprops req false env (by simp [← hpost])
    · intro before e hbefore hkeep h
      obtain ⟨post, hpost⟩ := hbefore.trans hpre
      rw [List.append_assoc, List.singleton_append] at hpost
      cases e with
      | addProperty => cases hkeep
      | settle => cases hkeep
      | commit req testOnly env =>
        obtain rfl : testOnly = true := by simpa [Event.tests] using hkeep
        have htest : Alike t
            (drmModeAtomicCommit libs env true (after (Shim.step libs) Shim.init before)).1
            (after (Shim.step libs) Shim.init (untested before)) :=
          h.test (hprops req true env (by simp [← hpost]))
        exact htest
  intro pre req env post hes
  have hbefore := halike pre ⟨_, hes.symm⟩
  have hsame : (drmModeAtomicCommit libs env false (after (Shim.step libs) Shim.init pre)).2
      = (drmModeAtomicCommit libs env false (after (Shim.step libs) Shim.init (untested pre))).2 :=
    (hbefore.commit (hprops req false env (by simp [hes])) (hpend pre req env post hes hbefore)).1
  simp only [added, Shim.step, hsame]

/-- A request with an EPDC plane. -/
def epdcRequest (req : ℕ) : List Event := [.addProperty req 5 17 100]

def epdcAnswers : Driver := fun obj =>
  if obj = 5 then some [some ⟨20, "EPDC_UPDATE_PARMS_ADDR"⟩, some ⟨21, "EPDC_UPDATE_CNT"⟩] else none

/-- A commit that finds the plane. -/
def epdcCommit (req : ℕ) (testOnly : Bool) : Event :=
  .commit req testOnly { Env.bare Tunables.init 1000 with driver := epdcAnswers }

/-- The request is assembled anew after the validation pass. -/
theorem tests_invisible_anew : TestsInvisible Libs.all
    (epdcRequest 1 ++ [epdcCommit 1 true] ++ epdcRequest 2 ++ [epdcCommit 2 false]) := by
  refine tests_invisible Libs.all Tunables.init ?_ ?_
  · intro req testOnly env hmem
    simp only [epdcRequest, epdcCommit, List.cons_append, List.nil_append, List.mem_cons,
      reduceCtorEq, Event.commit.injEq, List.not_mem_nil, or_false, false_or] at hmem
    rcases hmem with h | h
    · rw [h.2.2]
      rfl
    · rw [h.2.2]
      rfl
  · intro pre req env post hes _
    rcases pre with _ | ⟨e₁, _ | ⟨e₂, _ | ⟨e₃, _ | ⟨e₄, pre⟩⟩⟩⟩
    · simp [epdcRequest, epdcCommit] at hes
    · simp [epdcRequest, epdcCommit] at hes
    · simp [epdcRequest, epdcCommit] at hes
    · simp only [epdcRequest, epdcCommit, List.cons_append, List.nil_append,
        List.cons.injEq] at hes
      obtain ⟨rfl, rfl, rfl, -⟩ := hes
      decide
    · simp [epdcRequest, epdcCommit] at hes

/-- A request is validated and then committed: its plane is forgotten, and nothing is added. -/
theorem not_testsInvisible_validated : ¬ TestsInvisible Libs.all
    (epdcRequest 1 ++ [epdcCommit 1 true, epdcCommit 1 false]) := by
  intro h
  have hsame := h (epdcRequest 1 ++ [epdcCommit 1 true]) 1 _ [] rfl
  revert hsame
  decide

end PalmaEos
