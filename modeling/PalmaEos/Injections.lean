import PalmaEos.Recorded

/-!
# Commits that inject

A real commit of an enabled shim injects when the change detector fires and the rate limit lets it
through. What it adds is a function of the state before it and of the driver's answers.

## Main results

* `drmModeAtomicCommit_snd`, `step_commit_snd` — what a commit injects
* `injection_adds` — the properties that it adds, object by object
* `after_tuned` — fixed tunables are in force at every commit
-/

namespace PalmaEos

/-! ### Commits that inject -/

/-- The commit injects: it drives the panel, the change detector fires, and it is not held back. -/
def Injects (libs : Libs) (env : Env) (testOnly : Bool) (s : Shim) : Prop :=
  Drives env testOnly s ∧ Fires env (prepare libs env s) ∧ ¬ Throttled libs env (prepare libs env s)

instance (libs : Libs) (env : Env) (testOnly : Bool) (s : Shim) :
    Decidable (Injects libs env testOnly s) :=
  inferInstanceAs (Decidable (_ ∧ _))

section Injecting

variable {libs : Libs} {env : Env} {testOnly : Bool} {s : Shim}

/-- The injection of a commit that injects. -/
def injection (libs : Libs) (env : Env) (s : Shim) : Injection :=
  (inject libs env (snapshot env (prepare libs env s)) (sinceInject libs env (prepare libs env s))
    (observed env (prepare libs env s))).2

/-- **What a commit injects.** -/
theorem drmModeAtomicCommit_snd : (drmModeAtomicCommit libs env testOnly s).2 =
    if Injects libs env testOnly s then some (injection libs env s) else none := by
  rcases drmModeAtomicCommit_cases libs env testOnly s with
    ⟨hno, heq⟩ | ⟨-, hheld, heq⟩ | ⟨hdrives, hfires, hthr, heq⟩
  · rw [heq, if_neg fun h => hno h.1]
  · rw [heq, if_neg fun h => hheld.elim (fun hno => hno h.2.1) h.2.2]
  · rw [heq, if_pos ⟨hdrives, hfires, hthr⟩, injection]

theorem step_commit_snd (req : ℕ) : (s.step libs (.commit req testOnly env)).2 =
    if Injects libs env testOnly s then some (.injected req (injection libs env s)) else none := by
  simp only [Shim.step, drmModeAtomicCommit_snd]
  split_ifs <;> rfl

theorem injection_n (libs : Libs) (env : Env) (s : Shim) :
    1 ≤ (injection libs env s).n ∧ (injection libs env s).n ≤ 8 := by
  have hn : 1 ≤ (nextParms (snapshot env (prepare libs env s))
        (sinceInject libs env (prepare libs env s)) (observed env (prepare libs env s))).n ∧
      (nextParms (snapshot env (prepare libs env s))
        (sinceInject libs env (prepare libs env s)) (observed env (prepare libs env s))).n ≤ 8 :=
    initParms_n _ _ _ _ _ _ _
  exact hn

theorem startSettleThread_cache (libs : Libs) (threadStarts : Bool) (s : Shim) :
    (startSettleThread libs threadStarts s).cache = s.cache := by
  rw [startSettleThread]
  split_ifs <;> rfl

/-- **What an injecting commit adds**, by the state before it. -/
theorem injection_adds (hpend : (s.pend.map Prod.fst).Nodup) :
    (injection libs env s).adds = (s.pend.map Prod.fst).flatMap fun obj =>
      addsFor (injection libs env s).n obj
        (entryFor libs env.driver s.cache (s.pend.map Prod.fst) obj) := by
  obtain ⟨c, t, tried, fds, maps, att, hprep⟩ := prepare_frame libs env s
  have hseen : (observed env (prepare libs env s)).pend = s.pend ∧
      (observed env (prepare libs env s)).cache = s.cache := by
    rw [hprep]
    exact ⟨rfl, rfl⟩
  have hn : (injection libs env s).n = (nextParms (snapshot env (prepare libs env s))
      (sinceInject libs env (prepare libs env s)) (observed env (prepare libs env s))).n := rfl
  rw [hn, injection, inject]
  dsimp only
  rw [addParms_adds _ (hseen.1 ▸ hpend), startSettleThread_cache]
  dsimp only
  rw [hseen.1, hseen.2]

end Injecting

/-! ### Fixed tunables -/

/-- The next commit finds the tunables `t`, and the settle thread has them already. -/
structure Tuned (t : Tunables) (s : Shim) : Prop where
  refreshed : (refreshTunables t s).tun = t
  settled : s.settleRunning = true → s.tun = t

section Tuned

variable {libs : Libs} {t : Tunables} {s : Shim} {env : Env}

theorem refreshTunables_tun :
    (refreshTunables t s).tun = if s.commitsSinceRecheck + 1 < RECHECK then s.tun else t := by
  rw [refreshTunables]
  split_ifs <;> rfl

theorem tuned_of_tun (h : s.tun = t) : Tuned t s :=
  ⟨by rw [refreshTunables_tun, h, ite_self], fun _ => h⟩

/-- Only three variables matter. -/
theorem Tuned.congr {s' : Shim} (h : Tuned t s) (htun : s'.tun = s.tun)
    (hcounter : s'.commitsSinceRecheck = s.commitsSinceRecheck)
    (hrunning : s'.settleRunning = s.settleRunning) : Tuned t s' := by
  refine ⟨?_, fun hruns => htun.trans (h.settled (hrunning ▸ hruns))⟩
  rw [refreshTunables_tun, hcounter, htun, ← refreshTunables_tun]
  exact h.refreshed

theorem Tuned.addProperty (h : Tuned t s) (obj prop : UInt32) (value : UInt64) :
    Tuned t (drmModeAtomicAddProperty obj prop value s) := h.congr rfl rfl rfl

theorem Tuned.settle (h : Tuned t s) (clock : ℤ) (opens : Bool) :
    Tuned t (settleTick libs clock opens s).1 := by
  rcases settleTick_cases libs clock opens s with ⟨b, -, heq⟩ | ⟨-, heq⟩
  · rw [heq]
    exact h.congr rfl rfl rfl
  · rw [heq]
    exact h.congr rfl rfl rfl

/-- Reading the tunables `t` sets them. -/
theorem Tuned.refreshTunables_eq (h : Tuned t s) :
    ∃ c, refreshTunables t s = { s with commitsSinceRecheck := c, tun := t } := by
  obtain ⟨c, t', href⟩ := refreshTunables_frame s t
  have ht := h.refreshed
  rw [href] at ht
  rw [href, ← ht]
  exact ⟨c, rfl⟩

/-- A real commit works with the tunables that it has read. -/
theorem prepare_tun (libs : Libs) (env : Env) (s : Shim) :
    (prepare libs env s).tun = (refreshTunables env.props s).tun := by
  obtain ⟨tried, fds, maps, att, hatt⟩ :=
    attachDamage_frame libs (refreshTunables env.props s) env.file
  rw [prepare, hatt]

/-- A commit leaves the tunables that it has read. -/
theorem commit_tun (testOnly : Bool) : (drmModeAtomicCommit libs env testOnly s).1.tun
    = (refreshTunables env.props s).tun := by
  have hprep := prepare_tun libs env s
  rcases drmModeAtomicCommit_cases libs env testOnly s with
    ⟨-, heq⟩ | ⟨-, -, heq⟩ | ⟨-, -, -, heq⟩
  · rw [heq]
    rfl
  · rw [heq]
    exact hprep
  · obtain ⟨cache, fbid, started, running, hframe⟩ :=
      inject_frame libs env (observed env (prepare libs env s))
        (snapshot env (prepare libs env s)) (sinceInject libs env (prepare libs env s))
    rw [heq]
    dsimp only
    rw [hframe]
    exact hprep

theorem Tuned.commit (h : Tuned t s) (hprops : env.props = t) (testOnly : Bool) :
    Tuned t (drmModeAtomicCommit libs env testOnly s).1 :=
  tuned_of_tun (by rw [commit_tun, hprops, h.refreshed])

/-- **Fixed tunables**: in a run whose commits all meet the tunables `t`, they are in force at every
commit. -/
theorem after_tuned (libs : Libs) {es : List Event}
    (hprops : ∀ req testOnly env, .commit req testOnly env ∈ es → env.props = t) :
    Tuned t (after (Shim.step libs) Shim.init es) := by
  induction es using List.reverseRecOn with
  | nil => exact ⟨rfl, nofun⟩
  | append_singleton es e ih =>
    have hbefore := ih fun req testOnly env hmem =>
      hprops req testOnly env (List.mem_append_left _ hmem)
    rw [after_append]
    cases e with
    | addProperty req obj prop value => exact hbefore.addProperty obj prop value
    | settle clock opens => exact hbefore.settle clock opens
    | commit req testOnly env =>
      exact hbefore.commit (hprops req testOnly env (by simp)) testOnly

end Tuned

end PalmaEos
