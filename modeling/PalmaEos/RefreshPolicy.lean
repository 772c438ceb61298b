import Mathlib.Data.List.Induction
import Mathlib.Data.List.Pairwise
import PalmaEos.Injections

/-!
# The refresh policy

Over a whole run the tunables of the shim are a policy: a rate limit, a waveform for motion, and a
clean of the whole panel every so many injections. They share two variables, the time of the last
injection, which is zero before the first, and the counter of the injections since the last clean.

`Submission` is an injection together with what decided about it. In a run with fixed tunables the
two variables are functions of the submissions so far (`PolicyInv`), and the policy is read off.

## Main results

* `injection_modes` — what one injection asks for
* `PolicyInv.concat` — one more submission
* `refresh_policy` — the submissions of a run follow the policy
-/

namespace PalmaEos

/-! ### Submissions -/

/-- An injection of a run. -/
structure Submission where
  /-- The clock reading of the commit, in milliseconds. -/
  time : ℤ
  /-- The `fullevery` counter forces a full update. -/
  forced : Bool
  injection : Injection

/-- The submission of a call, if there is one. -/
def submission (libs : Libs) (s : Shim) : Event → Option Submission
  | .commit _ testOnly env => (drmModeAtomicCommit libs env testOnly s).2.map fun i =>
      ⟨nowMs libs env.clock, FullDue (refreshTunables env.props s).tun s.updatesSinceFull, i⟩
  | _ => none

/-- The submissions of a run from the loading of the library on. -/
def submissions (libs : Libs) (es : List Event) : List Submission :=
  outputs (fun s e => ((s.step libs e).1, submission libs s e)) Shim.init es

/-- The clock readings of the commits of a run. -/
def commitTimes (libs : Libs) (es : List Event) : List ℤ :=
  es.filterMap fun
    | .commit _ _ env => some (nowMs libs env.clock)
    | _ => none

/-- The waveform of an update that no clean is due for, from the time of the injection before. -/
def motionWf (t : Tunables) (time : ℤ) : Option ℤ → ℤ
  | some prev => if 0 < t.fastwf ∧ time - prev < t.fastms then t.fastwf else t.wf
  | none => t.wf

/-- All entries of the submission carry this waveform and this update mode. -/
def Submission.Asks (sub : Submission) (wf upd : ℤ) : Prop :=
  ∀ i : Fin 8, i.val < sub.injection.n →
    (sub.injection.parms i).waveformMode = wf ∧ (sub.injection.parms i).updateMode = upd

/-- The submission is a clean: one rectangle, the whole panel, in the quality waveform and with a
full flash. -/
def Submission.Cleans (t : Tunables) (sub : Submission) : Prop :=
  sub.injection.n = 1 ∧ sub.Asks t.wf 1 ∧
    ∀ i : Fin 8, i.val < sub.injection.n → (sub.injection.parms i).ltrb = panel

/-- All entries of the submission carry one waveform, one mode, one flag and one marker. -/
def Submission.Alike (sub : Submission) : Prop :=
  ∀ i j : Fin 8, i.val < sub.injection.n → j.val < sub.injection.n →
    (sub.injection.parms i).waveformMode = (sub.injection.parms j).waveformMode ∧
      (sub.injection.parms i).updateMode = (sub.injection.parms j).updateMode ∧
      (sub.injection.parms i).flag = (sub.injection.parms j).flag ∧
      (sub.injection.parms i).updateMarker = (sub.injection.parms j).updateMarker

/-- The time of the injection before number `k`, counting from 0. -/
def timeBefore (subs : List Submission) (k : ℕ) : Option ℤ :=
  (subs.take k).getLast?.map Submission.time

/-- **The policy.** -/
structure FollowsPolicy (t : Tunables) (subs : List Submission) : Prop where
  /-- Injections are an interval apart. -/
  apart : 0 < t.interval → subs.Pairwise fun a b => t.interval ≤ b.time - a.time
  /-- The counter forces every `fullevery`-th. -/
  forced_iff : ∀ k (sub : Submission), subs[k]? = some sub →
    (sub.forced = true ↔ 0 < t.fullevery ∧ t.fullevery ∣ ((k + 1 : ℕ) : ℤ))
  cleans : ∀ sub ∈ subs, sub.forced = true → sub.Cleans t
  asks : ∀ k (sub : Submission), subs[k]? = some sub → sub.forced = false →
    sub.Asks (motionWf t sub.time (timeBefore subs k)) t.upd
  alike : ∀ sub ∈ subs, sub.Alike

/-! ### One injection -/

section Injecting

variable {libs : Libs} {env : Env} {s : Shim} {t : Tunables}

/-- **What an injection asks for**, by the counter and the time since the injection before. -/
theorem injection_modes (ht : (refreshTunables env.props s).tun = t) :
    (∀ i : Fin 8, i.val < (injection libs env s).n →
      ((injection libs env s).parms i).waveformMode
          = chooseWf t s.updatesSinceFull (sinceInject libs env s) ∧
        ((injection libs env s).parms i).updateMode
          = (if FullDue t s.updatesSinceFull then 1 else t.upd) ∧
        ((injection libs env s).parms i).flag = t.flag ∧
        ((injection libs env s).parms i).updateMarker = wrap32 ((s.parms 0).updateMarker + 1)) ∧
      (FullDue t s.updatesSinceFull → (injection libs env s).n = 1 ∧
        ((injection libs env s).parms 0).ltrb = panel) := by
  have htun : (prepare libs env s).tun = t := (prepare_tun libs env s).trans ht
  obtain ⟨c, t', tried, fds, maps, att, hprep⟩ := prepare_frame libs env s
  have hinit : ∃ snap : Snapshot, (injection libs env s).parms
        = (initParms t s.updatesSinceFull (advanceMarker s.parms) (sinceInject libs env s)
          snap.rect snap.n (snap.full ≠ 0)).parms ∧
      (injection libs env s).n
        = (initParms t s.updatesSinceFull (advanceMarker s.parms) (sinceInject libs env s)
          snap.rect snap.n (snap.full ≠ 0)).n := by
    refine ⟨snapshot env (prepare libs env s), ?_⟩
    rw [← htun, injection, hprep]
    exact ⟨rfl, rfl⟩
  obtain ⟨snap, hparms, hn⟩ := hinit
  rw [hparms, hn]
  constructor
  · intro i hi
    obtain ⟨hwf, hupd, hflag⟩ := modes_initParms _ _ _ _ _ _ _ hi
    refine ⟨hwf, hupd, hflag, ?_⟩
    rw [(ltrb_initParms _ _ _ _ _ _ _ hi).2, advanceMarker, Function.update_self]
  · intro hdue
    have hused : usedRects t s.updatesSinceFull snap.n (snap.full ≠ 0) = 0 :=
      usedRects_of_full (Or.inl hdue)
    have hone : (initParms t s.updatesSinceFull (advanceMarker s.parms) (sinceInject libs env s)
        snap.rect snap.n (snap.full ≠ 0)).n = 1 := by
      rw [initParms]
      dsimp only
      rw [hused, if_neg (by omega)]
    have hfirst : ((0 : Fin 8).val : ℤ) < (initParms t s.updatesSinceFull (advanceMarker s.parms)
        (sinceInject libs env s) snap.rect snap.n (snap.full ≠ 0)).n := by
      rw [hone]
      decide
    refine ⟨hone, ?_⟩
    rw [(ltrb_initParms _ _ _ _ _ _ _ hfirst).1, hused, if_neg (by omega)]

/-- **One call.** A call without a submission leaves the time of the last injection and the counter
alone; a submission sets both. -/
theorem step_policy (libs : Libs) (s : Shim) (e : Event) :
    (submission libs s e = none ∧ (s.step libs e).1.lastInjectMs = s.lastInjectMs ∧
      (s.step libs e).1.updatesSinceFull = s.updatesSinceFull) ∨
    ∃ req testOnly env, e = .commit req testOnly env ∧ Injects libs env testOnly s ∧
      submission libs s e = some ⟨nowMs libs env.clock,
        FullDue (refreshTunables env.props s).tun s.updatesSinceFull, injection libs env s⟩ ∧
      (s.step libs e).1.lastInjectMs = nowMs libs env.clock ∧
      (s.step libs e).1.updatesSinceFull
        = countUpdate (refreshTunables env.props s).tun s.updatesSinceFull := by
  cases e with
  | addProperty req obj prop value => exact Or.inl ⟨rfl, rfl, rfl⟩
  | settle clock opens =>
    left
    simp only [Shim.step]
    rcases settleTick_cases libs clock opens s with ⟨b, -, heq⟩ | ⟨-, heq⟩
    · rw [heq]
      exact ⟨rfl, rfl, rfl⟩
    · rw [heq]
      exact ⟨rfl, rfl, rfl⟩
  | commit req testOnly env =>
    simp only [Shim.step, submission]
    rcases drmModeAtomicCommit_cases libs env testOnly s with
      ⟨hno, heq⟩ | ⟨-, hheld, heq⟩ | ⟨hdrives, hfires, hthr, heq⟩
    · left
      obtain ⟨c, t, href⟩ := refreshTunables_frame s env.props
      rw [heq, href]
      exact ⟨rfl, rfl, rfl⟩
    · left
      obtain ⟨c, t, tried, fds, maps, att, hprep⟩ := prepare_frame libs env s
      rw [heq, hprep]
      exact ⟨rfl, rfl, rfl⟩
    · right
      have htun := prepare_tun libs env s
      obtain ⟨c, t, tried, fds, maps, att, hprep⟩ := prepare_frame libs env s
      obtain ⟨cache, fbid, started, running, hframe⟩ :=
        inject_frame libs env (observed env (prepare libs env s))
          (snapshot env (prepare libs env s)) (sinceInject libs env (prepare libs env s))
      have hcount : (observed env (prepare libs env s)).updatesSinceFull = s.updatesSinceFull := by
        rw [hprep]
        rfl
      refine ⟨req, testOnly, env, rfl, ⟨hdrives, hfires, hthr⟩, ?_, ?_, ?_⟩
      · rw [heq]
        rfl
      · rw [heq]
        dsimp only
        rw [hframe]
      · rw [heq]
        dsimp only
        rw [hframe]
        change countUpdate (prepare libs env s).tun
          (observed env (prepare libs env s)).updatesSinceFull = _
        rw [htun, hcount]

end Injecting

/-! ### The two variables -/

/-- The time of the last injection and the counter, by the submissions so far. -/
structure PolicyInv (t : Tunables) (s : Shim) (subs : List Submission) : Prop where
  last : s.lastInjectMs = (subs.getLast?.map Submission.time).getD 0
  count : s.updatesSinceFull = if 0 < t.fullevery then (subs.length : ℤ) % t.fullevery else 0
  policy : FollowsPolicy t subs

section PolicyInv

variable {libs : Libs} {env : Env} {s : Shim} {t : Tunables} {subs : List Submission}

/-- The counter is due before every multiple, and counts on modulo `fullevery`. -/
theorem count_succ {every : ℤ} (hevery : 0 < every) (m : ℕ) :
    (every ≤ (m : ℤ) % every + 1 ↔ every ∣ ((m + 1 : ℕ) : ℤ)) ∧
      ((m + 1 : ℕ) : ℤ) % every
        = if every ≤ (m : ℤ) % every + 1 then 0 else (m : ℤ) % every + 1 := by
  have hlt := Int.emod_lt_of_pos (m : ℤ) hevery
  have hnonneg := Int.emod_nonneg (m : ℤ) hevery.ne'
  have hsucc : ((m + 1 : ℕ) : ℤ) % every = ((m : ℤ) % every + 1) % every := by
    rw [Int.emod_add_emod]
    push_cast
    rfl
  rw [Int.dvd_iff_emod_eq_zero, hsucc]
  split_ifs with hdue
  · have hfull : (m : ℤ) % every + 1 = every := by omega
    rw [hfull, Int.emod_self]
    exact ⟨iff_of_true le_rfl rfl, rfl⟩
  · have hsmall : ((m : ℤ) % every + 1) % every = (m : ℤ) % every + 1 :=
      Int.emod_eq_of_lt (by omega) (by omega)
    rw [hsmall]
    exact ⟨iff_of_false hdue (by omega), rfl⟩

theorem PolicyInv.fullDue_iff (h : PolicyInv t s subs) : FullDue t s.updatesSinceFull ↔
    0 < t.fullevery ∧ t.fullevery ∣ ((subs.length + 1 : ℕ) : ℤ) := by
  rw [FullDue]
  refine and_congr_right fun hevery => ?_
  rw [h.count, if_pos hevery]
  exact (count_succ hevery _).1

theorem PolicyInv.countUpdate_eq (h : PolicyInv t s subs) : countUpdate t s.updatesSinceFull
    = if 0 < t.fullevery then ((subs.length + 1 : ℕ) : ℤ) % t.fullevery else 0 := by
  have hdue := h.fullDue_iff
  have hcount := h.count
  rw [countUpdate]
  by_cases hevery : 0 < t.fullevery
  · obtain ⟨hmultiple, hsucc⟩ := count_succ hevery subs.length
    rw [if_pos hevery] at hcount ⊢
    rw [hsucc]
    by_cases hd : FullDue t s.updatesSinceFull
    · rw [if_pos hd, if_pos hevery, if_pos (hmultiple.mpr (hdue.mp hd).2)]
    · rw [if_neg hd, if_neg fun hle => hd (hdue.mpr ⟨hevery, hmultiple.mp hle⟩), if_pos hevery,
        hcount]
  · rw [if_neg hevery] at hcount ⊢
    rw [if_neg fun hd => hevery hd.1, if_neg hevery, hcount]

/-- The time since the last injection, or -1. -/
theorem PolicyInv.sinceInject_eq (h : PolicyInv t s subs) (hpos : ∀ sub ∈ subs, 1 ≤ sub.time) :
    sinceInject libs env s
      = ((subs.getLast?.map Submission.time).map (nowMs libs env.clock - ·)).getD (-1) := by
  have hlast := h.last
  rw [sinceInject]
  cases hget : subs.getLast? with
  | none =>
    rw [hget] at hlast
    rw [if_neg (by simpa using hlast)]
    rfl
  | some sub =>
    have htime := hpos sub (List.mem_of_getLast? hget)
    rw [hget] at hlast
    have hlast : s.lastInjectMs = sub.time := hlast
    rw [hlast, if_pos (by omega)]
    rfl

theorem throttled_prepare_iff (ht : (refreshTunables env.props s).tun = t) :
    Throttled libs env (prepare libs env s) ↔ 0 < t.interval ∧ 0 ≤ sinceInject libs env s ∧
      sinceInject libs env s < t.interval := by
  have htun := prepare_tun libs env s
  obtain ⟨c, t', tried, fds, maps, att, hprep⟩ := prepare_frame libs env s
  have hsince : sinceInject libs env (prepare libs env s) = sinceInject libs env s := by
    rw [hprep]
    rfl
  rw [Throttled, htun, ht, hsince]

/-- An injection that is not held back is an interval after all the others. -/
theorem PolicyInv.interval_le (h : PolicyInv t s subs) (hinterval : 0 < t.interval)
    (hpos : ∀ sub ∈ subs, 1 ≤ sub.time ∧ sub.time ≤ nowMs libs env.clock)
    (hthr : ¬ (0 < t.interval ∧ 0 ≤ sinceInject libs env s ∧ sinceInject libs env s < t.interval))
    {sub : Submission} (hsub : sub ∈ subs) : t.interval ≤ nowMs libs env.clock - sub.time := by
  have hsince : sinceInject libs env s
      = ((subs.getLast?.map Submission.time).map (nowMs libs env.clock - ·)).getD (-1) :=
    h.sinceInject_eq fun sub hsub => (hpos sub hsub).1
  have hold := h.policy.apart hinterval
  rcases subs.eq_nil_or_concat with rfl | ⟨l, last, rfl⟩
  · exact absurd hsub (by simp)
  rw [List.concat_eq_append] at *
  have hlast := (hpos last (by simp)).2
  rw [List.getLast?_concat] at hsince
  have hsince : sinceInject libs env s = nowMs libs env.clock - last.time := hsince
  rcases List.mem_append.mp hsub with hsub | hsub
  · have hbefore := (List.pairwise_append.mp hold).2.2 sub hsub last (by simp)
    omega
  · rw [List.mem_singleton.mp hsub]
    omega

/-- The waveform of an injection that is not forced, by the time of the one before it. -/
theorem PolicyInv.chooseWf_eq (h : PolicyInv t s subs)
    (hpos : ∀ sub ∈ subs, 1 ≤ sub.time ∧ sub.time ≤ nowMs libs env.clock)
    (hdue : ¬ FullDue t s.updatesSinceFull) :
    chooseWf t s.updatesSinceFull (sinceInject libs env s)
      = motionWf t (nowMs libs env.clock) (subs.getLast?.map Submission.time) := by
  rw [chooseWf, if_neg hdue, h.sinceInject_eq fun sub hsub => (hpos sub hsub).1]
  cases hlast : subs.getLast? with
  | none =>
    rw [if_neg (by simp)]
    rfl
  | some prev =>
    have hprev : 0 ≤ nowMs libs env.clock - prev.time := by
      have := hpos prev (List.mem_of_getLast? hlast)
      omega
    change (if 0 < t.fastwf ∧ 0 ≤ nowMs libs env.clock - prev.time ∧
      nowMs libs env.clock - prev.time < t.fastms then t.fastwf else t.wf) = _
    simp only [hprev, true_and]
    rfl

/-- What is said of submission number `k` is said of an old one or of the new one. -/
theorem getElem?_concat_cases {new sub : Submission} {k : ℕ}
    (hk : (subs ++ [new])[k]? = some sub) :
    subs[k]? = some sub ∧ timeBefore (subs ++ [new]) k = timeBefore subs k ∨
      k = subs.length ∧ sub = new ∧
        timeBefore (subs ++ [new]) k = subs.getLast?.map Submission.time := by
  rcases Nat.lt_trichotomy k subs.length with hlt | rfl | hgt
  · left
    rw [List.getElem?_append_left hlt] at hk
    rw [timeBefore, List.take_append_of_le_length hlt.le]
    exact ⟨hk, rfl⟩
  · right
    rw [List.getElem?_concat_length] at hk
    rw [timeBefore, List.take_left]
    exact ⟨rfl, (Option.some.inj hk).symm, rfl⟩
  · rw [List.getElem?_eq_none (by simp; omega)] at hk
    exact absurd hk (by simp)

section Injection

variable (time : ℤ) (forced : Bool)

/-- A forced injection is a clean. -/
theorem cleans_injection (ht : (refreshTunables env.props s).tun = t)
    (hdue : FullDue t s.updatesSinceFull) :
    Submission.Cleans t ⟨time, forced, injection libs env s⟩ := by
  obtain ⟨hmodes, hclean⟩ := @injection_modes libs env s t ht
  obtain ⟨hone, hpanel⟩ := hclean hdue
  refine ⟨hone, fun i hi => ?_, fun i hi => ?_⟩
  · obtain ⟨hwf, hupd, -⟩ := hmodes i hi
    rw [hwf, hupd, chooseWf, if_pos hdue, if_pos hdue]
    exact ⟨rfl, rfl⟩
  · dsimp only at hi
    obtain rfl : i = 0 := by omega
    exact hpanel

/-- Any other injection asks for the waveform that is chosen, and for the mode of the tunables. -/
theorem asks_injection (ht : (refreshTunables env.props s).tun = t)
    (hdue : ¬ FullDue t s.updatesSinceFull) :
    Submission.Asks ⟨time, forced, injection libs env s⟩
      (chooseWf t s.updatesSinceFull (sinceInject libs env s)) t.upd := by
  intro i hi
  obtain ⟨hwf, hupd, -⟩ := (@injection_modes libs env s t ht).1 i hi
  rw [hwf, hupd, if_neg hdue]
  exact ⟨rfl, rfl⟩

theorem alike_injection (ht : (refreshTunables env.props s).tun = t) :
    Submission.Alike ⟨time, forced, injection libs env s⟩ := by
  obtain ⟨hmodes, -⟩ := @injection_modes libs env s t ht
  intro i j hi hj
  obtain ⟨hwf, hupd, hflag, hmarker⟩ := hmodes i hi
  obtain ⟨hwf', hupd', hflag', hmarker'⟩ := hmodes j hj
  rw [hwf, hupd, hflag, hmarker, hwf', hupd', hflag', hmarker']
  exact ⟨rfl, rfl, rfl, rfl⟩

end Injection

/-- **One more submission.** -/
theorem PolicyInv.concat (h : PolicyInv t s subs) {testOnly : Bool}
    (ht : (refreshTunables env.props s).tun = t) (hinj : Injects libs env testOnly s)
    (hpos : ∀ sub ∈ subs, 1 ≤ sub.time ∧ sub.time ≤ nowMs libs env.clock) :
    FollowsPolicy t (subs ++ [⟨nowMs libs env.clock, FullDue t s.updatesSinceFull,
      injection libs env s⟩]) where
  apart hinterval := by
    rw [List.pairwise_append]
    refine ⟨h.policy.apart hinterval, List.pairwise_singleton _ _, fun sub hsub b hb => ?_⟩
    rw [List.mem_singleton.mp hb]
    exact h.interval_le hinterval hpos (mt (throttled_prepare_iff ht).mpr hinj.2.2) hsub
  forced_iff k sub hk := by
    rcases getElem?_concat_cases hk with ⟨hk, -⟩ | ⟨rfl, rfl, -⟩
    · exact h.policy.forced_iff k sub hk
    · exact decide_eq_true_iff.trans h.fullDue_iff
  cleans sub hsub hforced := by
    rcases List.mem_append.mp hsub with hsub | hsub
    · exact h.policy.cleans sub hsub hforced
    · rw [List.mem_singleton.mp hsub] at hforced ⊢
      exact cleans_injection _ _ ht (of_decide_eq_true hforced)
  asks k sub hk hforced := by
    rcases getElem?_concat_cases hk with ⟨hk, hbefore⟩ | ⟨rfl, rfl, hbefore⟩
    · rw [hbefore]
      exact h.policy.asks k sub hk hforced
    · have hdue := of_decide_eq_false hforced
      rw [hbefore, ← h.chooseWf_eq hpos hdue]
      exact asks_injection _ _ ht hdue
  alike sub hsub := by
    rcases List.mem_append.mp hsub with hsub | hsub
    · exact h.policy.alike sub hsub
    · rw [List.mem_singleton.mp hsub]
      exact alike_injection _ _ ht

end PolicyInv

/-! ### Whole runs -/

section Runs

variable {libs : Libs} {t : Tunables} {es : List Event}

theorem after_submissionStep (libs : Libs) (s : Shim) (es : List Event) :
    after (fun s e => ((s.step libs e).1, submission libs s e)) s es
      = after (Shim.step libs) s es := by
  induction es generalizing s with
  | nil => rfl
  | cons e es ih => exact ih _

theorem submissions_concat (libs : Libs) (es : List Event) (e : Event) :
    submissions libs (es ++ [e]) = submissions libs es
      ++ (submission libs (after (Shim.step libs) Shim.init es) e).toList := by
  rw [submissions, outputs_append, outputs_singleton, after_submissionStep, submissions]

/-- The time of a submission is the clock reading of its commit. -/
theorem time_mem_commitTimes {sub : Submission} (h : sub ∈ submissions libs es) :
    sub.time ∈ commitTimes libs es := by
  induction es using List.reverseRecOn with
  | nil => exact absurd h (by simp [submissions, outputs])
  | append_singleton es e ih =>
    rw [submissions_concat, List.mem_append] at h
    rw [commitTimes, List.filterMap_append, List.mem_append]
    rcases h with h | h
    · exact Or.inl (ih h)
    · right
      cases e with
      | addProperty req obj prop value => simp [submission] at h
      | settle clock opens => simp [submission] at h
      | commit req testOnly env =>
        rw [Option.mem_toList, submission] at h
        obtain ⟨i, -, rfl⟩ := Option.map_eq_some_iff.mp h
        exact List.mem_singleton.mpr rfl

/-- The two variables after a run with fixed tunables. -/
theorem policyInv_after
    (hprops : ∀ req testOnly env, .commit req testOnly env ∈ es → env.props = t)
    (hclock : (commitTimes libs es).Pairwise (· ≤ ·)) (hpos : ∀ τ ∈ commitTimes libs es, 1 ≤ τ) :
    PolicyInv t (after (Shim.step libs) Shim.init es) (submissions libs es) := by
  induction es using List.reverseRecOn with
  | nil =>
    refine ⟨rfl, ?_, ⟨fun _ => List.Pairwise.nil, ?_, ?_, ?_, ?_⟩⟩
    · split_ifs
      · exact (Int.zero_emod _).symm
      · rfl
    all_goals simp [submissions, outputs]
  | append_singleton es e ih =>
    have htimes : commitTimes libs (es ++ [e]) = commitTimes libs es ++ commitTimes libs [e] :=
      List.filterMap_append
    rw [htimes, List.pairwise_append] at hclock
    rw [htimes, List.forall_mem_append] at hpos
    have htuned := after_tuned libs fun req testOnly env hmem =>
      hprops req testOnly env (List.mem_append_left _ hmem)
    have hinv := ih (fun req testOnly env hmem =>
      hprops req testOnly env (List.mem_append_left _ hmem)) hclock.1 hpos.1
    rw [submissions_concat, after_append]
    generalize hs : after (Shim.step libs) Shim.init es = s at *
    change PolicyInv t (s.step libs e).1 _
    rcases step_policy libs s e with ⟨hnone, hlast, hcount⟩ |
      ⟨req, testOnly, env, rfl, hinj, hsome, hlast, hcount⟩
    · rw [hnone, Option.toList_none, List.append_nil]
      exact ⟨hlast.trans hinv.last, hcount.trans hinv.count, hinv.policy⟩
    · have ht : (refreshTunables env.props s).tun = t := by
        rw [hprops req testOnly env (by simp)]
        exact htuned.refreshed
      have hnow : nowMs libs env.clock ∈ commitTimes libs [.commit req testOnly env] :=
        List.mem_singleton.mpr rfl
      rw [ht] at hsome hcount
      rw [hsome, Option.toList_some]
      refine ⟨?_, ?_, hinv.concat ht hinj fun sub hsub => ?_⟩
      · rw [List.getLast?_concat]
        exact hlast
      · rw [hcount, hinv.countUpdate_eq, List.length_append, List.length_singleton]
      · have hmem := time_mem_commitTimes hsub
        exact ⟨hpos.1 _ hmem, hclock.2.2 _ hmem _ hnow⟩

/-- **The refresh policy.** In a run whose commits all meet the same tunables `t` and whose clock
readings never decrease and are at least 1 ms, injections are an interval apart when there is one;
the counter forces the injections numbered `fullevery`, twice `fullevery` and so on, and no others,
and each of those is one rectangle, the whole panel, in the quality waveform with a full flash;
every other injection uses the update mode `upd`, and the fast waveform exactly when there is one,
an injection before it, and less than `fastms` since. All entries of one injection are alike. -/
theorem refresh_policy (libs : Libs) (t : Tunables) (es : List Event)
    (hprops : ∀ req testOnly env, .commit req testOnly env ∈ es → env.props = t)
    (hclock : (commitTimes libs es).Pairwise (· ≤ ·)) (hpos : ∀ τ ∈ commitTimes libs es, 1 ≤ τ) :
    FollowsPolicy t (submissions libs es) :=
  (policyInv_after hprops hclock hpos).policy

/-- Three commits, the last of which is throttled, with a clean every second injection. -/
def politeTunables : Tunables :=
  { Tunables.init with interval := 100, fastwf := 6, fullevery := 2, skipsame := 0 }

theorem refresh_policy_three : FollowsPolicy politeTunables (submissions .all
    [.commit 0 false (Env.bare politeTunables 1), .commit 1 false (Env.bare politeTunables 101),
      .commit 2 false (Env.bare politeTunables 150)]) := by
  refine refresh_policy .all politeTunables _ ?_ (by decide) (by decide)
  intro req testOnly env hmem
  simp only [List.mem_cons, List.not_mem_nil, or_false, Event.commit.injEq] at hmem
  rcases hmem with ⟨-, -, rfl⟩ | ⟨-, -, rfl⟩ | ⟨-, -, rfl⟩ <;> rfl

end Runs

end PalmaEos
