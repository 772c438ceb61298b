import PalmaEos.Lib.Runs
import PalmaEos.Shim

/-!
# Settle passes

Something has been drawn since the last settle pass: that is what `g_settle_pending` says. A commit
that injects stores `last_inject_ms` and sets the flag before it hands its request on; the settle
thread tests the flag, measures how long the screen has been quiet, clears the flag, and only then
sends the settle pass, if `/dev/ebc` opens.

`Shim.step` takes a commit and a round of the thread as a whole. Here every load and store of the
flag and of `last_inject_ms` is a step of its own, and the steps of the two threads interleave in
any order. The clock is read anew at every step that looks at it.

## Main results

* `commit_uninterrupted`, `round_uninterrupted` — uninterrupted, the steps are those of the shim
* `noPassLost_iff` — no settle pass is lost exactly when no step loses one
-/

namespace PalmaEos

namespace Settle

/-! ### The two threads -/

/-- What the composer calls. -/
inductive Call
  | addProperty (obj prop : UInt32) (value : UInt64)
  | commit (req : ℕ) (testOnly : Bool) (env : Env)

/-- A commit that injects, from the rate limit on. -/
structure Injecting where
  req : ℕ
  env : Env
  snap : Snapshot
  dt : ℤ

/-- Where the composer is. -/
inductive Composer
  | idle
  /-- Next is the store of `last_inject_ms`. -/
  | stamping (c : Injecting)
  /-- Next are `init_parms` and the store of `g_settle_pending`. -/
  | arming (c : Injecting)
  /-- Next is `start_settle_thread`; `n` entries count. -/
  | starting (c : Injecting) (n : ℤ)
  /-- Next the properties are added and the request is handed to `real_commit`. -/
  | handing (c : Injecting) (n : ℤ)

/-- Where the settle thread is. -/
inductive Settler
  /-- Asleep; next is the load of `t_settlems`. -/
  | sleeping
  /-- Next is the load of `g_settle_pending`. -/
  | testing
  /-- Next is the call of `now_ms`. -/
  | timing
  /-- Next is the load of `last_inject_ms`. -/
  | measuring (now : ℤ)
  /-- Next is the comparison with `t_settlems`. -/
  | comparing (quiet : ℤ)
  /-- Next `g_settle_pending` is cleared. -/
  | clearing
  /-- In `settle_now`, before the device is open. -/
  | opening
  /-- In `settle_now`, with the device open. -/
  | sending

/-- The thread has cleared the flag and has not finished `settle_now`. -/
def Settler.Settling : Settler → Prop
  | .opening | .sending => True
  | _ => False

instance : (t : Settler) → Decidable t.Settling
  | .opening | .sending => .isTrue trivial
  | .sleeping | .testing | .timing | .measuring _ | .comparing _ | .clearing => .isFalse id

/-- The static variables and both threads. -/
structure State where
  shim : Shim
  composer : Composer
  settler : Settler

def State.init : State := ⟨Shim.init, .idle, .sleeping⟩

/-- What the trace of a run records. -/
inductive Note
  /-- `g_settle_pending` was set. -/
  | armed
  | out (o : Output)

def Note.out? : Note → Option Output
  | .armed => none
  | .out o => some o

/-- A commit injects. -/
def Injects (libs : Libs) (env : Env) (testOnly : Bool) (s : Shim) : Prop :=
  Drives env testOnly s ∧ Fires env (prepare libs env s) ∧ ¬ Throttled libs env (prepare libs env s)

instance (libs : Libs) (env : Env) (testOnly : Bool) (s : Shim) :
    Decidable (Injects libs env testOnly s) :=
  inferInstanceAs (Decidable (_ ∧ _ ∧ _))

/-- A step of the composer; a new call is `call`. A commit that does not inject is taken as a
whole. -/
def composerStep (libs : Libs) (call : Call) (s : State) : State × Option Note :=
  match s.composer with
  | .idle =>
    match call with
    | .addProperty obj prop value =>
      ({ s with shim := drmModeAtomicAddProperty obj prop value s.shim }, none)
    | .commit req testOnly env =>
      if Injects libs env testOnly s.shim then
        let prepared := prepare libs env s.shim
        ({ s with
          shim := observed env prepared
          composer := .stamping ⟨req, env, snapshot env prepared, sinceInject libs env prepared⟩ },
          none)
      else ({ s with shim := (drmModeAtomicCommit libs env testOnly s.shim).1 }, none)
  | .stamping c =>
    ({ s with
      shim := { s.shim with lastInjectMs := nowMs libs c.env.clock }
      composer := .arming c }, none)
  | .arming c =>
    let r := nextParms c.snap c.dt s.shim
    ({ s with
      shim := { s.shim with
        parms := r.parms
        updatesSinceFull := r.updatesSinceFull
        settlePending := true }
      composer := .starting c r.n }, some .armed)
  | .starting c n =>
    ({ s with
      shim := startSettleThread libs c.env.threadStarts s.shim
      composer := .handing c n }, none)
  | .handing c n =>
    let (shim, adds) := addParms libs c.env.driver n s.shim.pend s.shim
    ({ s with shim := shim.clearPend, composer := .idle },
      some (.out (.injected c.req ⟨s.shim.parms, n, adds⟩)))

/-- `/dev/ebc` is opened, when it opens at all. -/
def Opens (libs : Libs) (opens : Bool) : Prop :=
  libs.open_ = true ∧ libs.ioctl = true ∧ opens = true

instance (libs : Libs) (opens : Bool) : Decidable (Opens libs opens) :=
  inferInstanceAs (Decidable (_ ∧ _ ∧ _))

/-- A step of the settle thread, which meets the clock and the device. -/
def settlerStep (libs : Libs) (clock : ℤ) (opens : Bool) (s : State) : State × Option Note :=
  if ! s.shim.settleRunning then (s, none)
  else match s.settler with
  | .sleeping =>
    ({ s with settler := if s.shim.tun.settlems = 0 then .sleeping else .testing }, none)
  | .testing => ({ s with settler := if s.shim.settlePending then .timing else .sleeping }, none)
  | .timing => ({ s with settler := .measuring (nowMs libs clock) }, none)
  | .measuring now => ({ s with settler := .comparing (now - s.shim.lastInjectMs) }, none)
  | .comparing quiet =>
    ({ s with settler := if quiet < s.shim.tun.settlems then .sleeping else .clearing }, none)
  | .clearing =>
    ({ s with shim := { s.shim with settlePending := false }, settler := .opening }, none)
  | .opening => ({ s with settler := if Opens libs opens then .sending else .sleeping }, none)
  | .sending =>
    ({ s with
      shim := { s.shim with settleMarker := nextSettleMarker s.shim.settleMarker }
      settler := .sleeping },
      some (.out (.settled (settleUpd s.shim.tun (nextSettleMarker s.shim.settleMarker)))))

/-- Which thread takes the next step. -/
inductive Turn
  | composer (call : Call)
  | settler (clock : ℤ) (opens : Bool)

def State.step (libs : Libs) (s : State) : Turn → State × Option Note
  | .composer call => composerStep libs call s
  | .settler clock opens => settlerStep libs clock opens s

/-! ### Uninterrupted -/

section Uninterrupted

variable (libs : Libs) {s : State}

/-- The steps of an injection, from its store of `last_inject_ms` on. -/
theorem inject_eq {env : Env} {snap : Snapshot} {dt : ℤ} {shim started : Shim}
    (hstarted : started = startSettleThread libs env.threadStarts { shim with
      lastInjectMs := nowMs libs env.clock
      parms := (nextParms snap dt shim).parms
      updatesSinceFull := (nextParms snap dt shim).updatesSinceFull
      settlePending := true }) :
    inject libs env snap dt shim =
      ((addParms libs env.driver (nextParms snap dt shim).n started.pend started).1.clearPend,
        ⟨started.parms, (nextParms snap dt shim).n,
          (addParms libs env.driver (nextParms snap dt shim).n started.pend started).2⟩) := by
  obtain ⟨a, b, hframe⟩ := startSettleThread_frame libs { shim with
    lastInjectMs := nowMs libs env.clock
    parms := (nextParms snap dt shim).parms
    updatesSinceFull := (nextParms snap dt shim).updatesSinceFull
    settlePending := true } env.threadStarts
  rw [hstarted, inject]
  simp only [hframe]

/-- **A commit that is not interrupted** is `drmModeAtomicCommit`. -/
theorem commit_uninterrupted (hidle : s.composer = .idle) (req : ℕ) (testOnly : Bool) (env : Env) :
    ∃ n, after (State.step libs) s (List.replicate n (.composer (.commit req testOnly env)))
        = { s with shim := (drmModeAtomicCommit libs env testOnly s.shim).1 } ∧
      (outputs (State.step libs) s
          (List.replicate n (.composer (.commit req testOnly env)))).filterMap Note.out?
        = ((drmModeAtomicCommit libs env testOnly s.shim).2.map (Output.injected req)).toList := by
  obtain ⟨shim, composer, settler⟩ := s
  obtain rfl : composer = .idle := hidle
  rcases drmModeAtomicCommit_cases libs env testOnly shim with
    ⟨hskip, heq⟩ | ⟨-, hheld, heq⟩ | ⟨hdrives, hfires, hfree, heq⟩
  · have hnot : ¬ Injects libs env testOnly shim := fun h => hskip h.1
    refine ⟨1, ?_, ?_⟩
    · simp only [List.replicate, after, State.step, composerStep, if_neg hnot]
    · simp only [List.replicate, outputs, State.step, composerStep, if_neg hnot, heq]
      rfl
  · have hnot : ¬ Injects libs env testOnly shim := by
      rintro ⟨-, hfires, hfree⟩
      exact hheld.elim (fun h => h hfires) hfree
    refine ⟨1, ?_, ?_⟩
    · simp only [List.replicate, after, State.step, composerStep, if_neg hnot]
    · simp only [List.replicate, outputs, State.step, composerStep, if_neg hnot, heq]
      rfl
  · have hinjects : Injects libs env testOnly shim := ⟨hdrives, hfires, hfree⟩
    refine ⟨5, ?_, ?_⟩
    · simp only [List.replicate, after, State.step, composerStep, if_pos hinjects, heq]
      rw [inject_eq libs rfl]
      rfl
    · simp only [List.replicate, outputs, State.step, composerStep, if_pos hinjects, heq]
      rw [inject_eq libs rfl]
      rfl

/-- `settle_now` sends the update, or returns silently. -/
theorem settleNow_eq (opens : Bool) (shim : Shim) : settleNow libs opens shim =
    if Opens libs opens then
      ({ shim with settleMarker := nextSettleMarker shim.settleMarker },
        some (settleUpd shim.tun (nextSettleMarker shim.settleMarker)))
    else (shim, none) := by
  rw [settleNow]
  by_cases hopens : Opens libs opens
  · obtain ⟨hopen, hioctl, rfl⟩ := hopens
    simp [Opens, hopen, hioctl]
  · rw [if_neg hopens]
    split_ifs with hlibs hfails
    · rfl
    · rfl
    · simp only [Bool.or_eq_true, Bool.not_eq_true', not_or, Bool.not_eq_false] at hlibs hfails
      exact absurd ⟨hlibs.1, hlibs.2, hfails⟩ hopens

/-- **A round of the thread that is not interrupted** is `settleTick`. -/
theorem round_uninterrupted (hsleeping : s.settler = .sleeping) (clock : ℤ) (opens : Bool) :
    ∃ n, after (State.step libs) s (List.replicate n (.settler clock opens))
        = { s with shim := (settleTick libs clock opens s.shim).1 } ∧
      (outputs (State.step libs) s (List.replicate n (.settler clock opens))).filterMap Note.out?
        = ((settleTick libs clock opens s.shim).2.map Output.settled).toList := by
  obtain ⟨shim, composer, settler⟩ := s
  obtain rfl : settler = .sleeping := hsleeping
  by_cases hrunning : shim.settleRunning = true
  swap
  · refine ⟨0, ?_, ?_⟩ <;> simp [after, outputs, settleTick, hrunning]
  by_cases hoff : shim.tun.settlems = 0
  · refine ⟨1, ?_, ?_⟩ <;>
      simp [List.replicate, after, outputs, State.step, settlerStep, settleTick, hrunning, hoff]
  by_cases hpending : shim.settlePending = true
  swap
  · refine ⟨2, ?_, ?_⟩ <;>
      simp [List.replicate, after, outputs, State.step, settlerStep, settleTick, hrunning, hoff,
        hpending]
  by_cases hquiet : nowMs libs clock - shim.lastInjectMs < shim.tun.settlems
  · refine ⟨5, ?_, ?_⟩ <;>
      simp [List.replicate, after, outputs, State.step, settlerStep, settleTick, hrunning, hoff,
        hpending, hquiet]
  by_cases hopens : Opens libs opens
  · refine ⟨8, ?_, ?_⟩ <;>
      simp [List.replicate, after, outputs, State.step, settlerStep, settleTick, settleNow_eq,
        hrunning, hoff, hpending, hquiet, hopens, Note.out?]
  · refine ⟨7, ?_, ?_⟩ <;>
      simp [List.replicate, after, outputs, State.step, settlerStep, settleTick, settleNow_eq,
        hrunning, hoff, hpending, hquiet, hopens]

end Uninterrupted

/-! ### Lost passes -/

/-- When an injection counts as made: as soon as the flag is set for it, or when the request has
been handed on. -/
inductive Moment
  | armed
  | handedOn

/-- The entry of the trace that makes an injection. -/
def Note.Made : Moment → Note → Prop
  | .armed, .armed => True
  | .handedOn, .out (.injected _ _) => True
  | _, _ => False

/-- A settle pass has been sent. -/
def Note.Sent : Note → Prop
  | .out (.settled _) => True
  | _ => False

/-- Something has been injected, and no settle pass has been sent since the most recent
injection. -/
def Unsettled (m : Moment) (trace : List Note) : Prop :=
  Owed (fun n (_ : Unit) => n.Made m) (fun n _ => n.Sent) trace ()

/-- **No settle pass is lost** in a state: with the flag down and the thread outside `settle_now`,
the most recent injection has had its settle pass. -/
def NoPassLost (m : Moment) (trace : List Note) (s : State) : Prop :=
  s.shim.settlePending = false → ¬ s.settler.Settling → ¬ Unsettled m trace

/-- The step loses a settle pass: `settle_now` returns without having sent the update, and the flag
that was cleared for it is still down; or the request is handed on only when the thread has already
cleared the flag and finished `settle_now`. -/
def Loses (libs : Libs) (m : Moment) (trace : List Note) (s : State) : Turn → Prop
  | .composer _ => m = .handedOn ∧ (∃ c n, s.composer = .handing c n) ∧
      s.shim.settlePending = false ∧ ¬ s.settler.Settling
  | .settler _ opens => s.shim.settleRunning = true ∧ s.settler = .opening ∧ ¬ Opens libs opens ∧
      s.shim.settlePending = false ∧ Unsettled m trace

section Lost

variable {libs : Libs} {m : Moment} {trace : List Note} {s : State}

theorem unsettled_concat {n : Note} :
    Unsettled m (trace ++ [n]) ↔ n.Made m ∨ Unsettled m trace ∧ ¬ n.Sent := owed_concat

theorem settlePending_prepare (env : Env) (shim : Shim) :
    (observed env (prepare libs env shim)).settlePending = shim.settlePending := by
  obtain ⟨c, t, tried, fds, maps, att, h⟩ := prepare_frame libs env shim
  rw [h]
  rfl

/-- A commit that does not inject leaves the flag alone. -/
theorem settlePending_commit {env : Env} {testOnly : Bool} {shim : Shim}
    (h : ¬ Injects libs env testOnly shim) :
    (drmModeAtomicCommit libs env testOnly shim).1.settlePending = shim.settlePending := by
  rcases drmModeAtomicCommit_cases libs env testOnly shim with
    ⟨-, heq⟩ | ⟨-, -, heq⟩ | ⟨hdrives, hfires, hfree, -⟩
  · obtain ⟨c, t, href⟩ := refreshTunables_frame shim env.props
    rw [heq, href]
    rfl
  · rw [heq]
    exact settlePending_prepare env shim
  · exact absurd ⟨hdrives, hfires, hfree⟩ h

/-- A step without an entry in the trace, which leaves the flag and the window alone. -/
theorem NoPassLost.of_same {s' : State} (h : NoPassLost m trace s)
    (hpending : s'.shim.settlePending = s.shim.settlePending)
    (hsettling : s.settler.Settling → s'.settler.Settling) :
    NoPassLost m (trace ++ (none : Option Note).toList) s' := by
  rw [Option.toList_none, List.append_nil]
  intro hdown hout
  exact h (hpending ▸ hdown) fun hin => hout (hsettling hin)

/-- **A step of the composer** keeps the passes exactly if it loses none. -/
theorem noPassLost_composerStep (h : NoPassLost m trace s) (call : Call) :
    NoPassLost m (trace ++ (composerStep libs call s).2.toList) (composerStep libs call s).1 ↔
      ¬ Loses libs m trace s (.composer call) := by
  have hharmless : (∀ c n, s.composer ≠ .handing c n) →
      ¬ Loses libs m trace s (.composer call) := by
    rintro hne ⟨-, ⟨c, n, hc⟩, -⟩
    exact hne c n hc
  rcases hcomposer : s.composer with _ | c | c | ⟨c, n⟩ | ⟨c, n⟩
  · refine iff_of_true ?_ (hharmless (by simp [hcomposer]))
    cases call with
    | addProperty obj prop value =>
      simp only [composerStep, hcomposer]
      exact h.of_same rfl id
    | commit req testOnly env =>
      simp only [composerStep, hcomposer]
      split_ifs with hinjects
      · exact h.of_same (settlePending_prepare env s.shim) id
      · exact h.of_same (settlePending_commit hinjects) id
  · refine iff_of_true ?_ (hharmless (by simp [hcomposer]))
    simp only [composerStep, hcomposer]
    exact h.of_same rfl id
  · refine iff_of_true ?_ (hharmless (by simp [hcomposer]))
    simp only [composerStep, hcomposer]
    exact fun hdown => absurd hdown (by simp)
  · refine iff_of_true ?_ (hharmless (by simp [hcomposer]))
    obtain ⟨started, running, hstart⟩ := startSettleThread_frame libs s.shim c.env.threadStarts
    simp only [composerStep, hcomposer, hstart]
    exact h.of_same rfl id
  · -- the request is handed on
    obtain ⟨cache, fbid, hadd⟩ := addParms_frame libs s.shim c.env.driver n s.shim.pend
    simp only [composerStep, hcomposer, hadd, Option.toList_some, NoPassLost, unsettled_concat,
      Loses, Shim.clearPend]
    cases m with
    | armed =>
      refine iff_of_true (fun hdown hout hlost => ?_) (fun hloses => nomatch hloses.1)
      exact h hdown hout (hlost.resolve_left id).1
    | handedOn =>
      constructor
      · rintro hkept ⟨-, -, hdown, hout⟩
        exact hkept hdown hout (Or.inl trivial)
      · intro hloses hdown hout _
        exact hloses ⟨rfl, ⟨c, n, rfl⟩, hdown, hout⟩

/-- **A step of the settle thread** keeps the passes exactly if it loses none. -/
theorem noPassLost_settlerStep (h : NoPassLost m trace s) (clock : ℤ) (opens : Bool) :
    NoPassLost m (trace ++ (settlerStep libs clock opens s).2.toList)
        (settlerStep libs clock opens s).1 ↔ ¬ Loses libs m trace s (.settler clock opens) := by
  have hharmless : s.settler ≠ .opening → ¬ Loses libs m trace s (.settler clock opens) :=
    fun hne hloses => hne hloses.2.1
  by_cases hrunning : s.shim.settleRunning = true
  swap
  · refine iff_of_true ?_ fun hloses => hrunning hloses.1
    simp only [settlerStep, hrunning]
    exact h.of_same rfl id
  -- outside `settle_now` only the place of the thread changes
  have hmoves : ∀ t : Settler, ¬ s.settler.Settling →
      (NoPassLost m (trace ++ (none : Option Note).toList) { s with settler := t } ↔
        ¬ Loses libs m trace s (.settler clock opens)) := by
    intro t hout
    refine iff_of_true (h.of_same rfl fun hin => absurd hin hout) (hharmless ?_)
    intro hopening
    rw [hopening] at hout
    exact hout trivial
  rcases hsettler : s.settler with _ | _ | _ | now | quiet | _ | _ | _ <;>
    simp only [settlerStep, hrunning, hsettler, Bool.not_true, Bool.false_eq_true, if_false]
  · exact hmoves _ (by rw [hsettler]; exact id)
  · exact hmoves _ (by rw [hsettler]; exact id)
  · exact hmoves _ (by rw [hsettler]; exact id)
  · exact hmoves _ (by rw [hsettler]; exact id)
  · exact hmoves _ (by rw [hsettler]; exact id)
  · -- the flag is cleared
    exact iff_of_true (fun _ hout => absurd trivial hout) (hharmless (by simp [hsettler]))
  · by_cases hopens : Opens libs opens
    · rw [if_pos hopens]
      exact iff_of_true (fun _ hout => absurd trivial hout) fun hloses => hloses.2.2.1 hopens
    · -- the silent return
      rw [if_neg hopens, Option.toList_none, List.append_nil]
      constructor
      · rintro hkept ⟨-, -, -, hdown, hlost⟩
        exact hkept hdown id hlost
      · intro hloses hdown _ hlost
        exact hloses ⟨hrunning, hsettler, hopens, hdown, hlost⟩
  · -- the update is sent
    refine iff_of_true (fun _ _ hlost => ?_) (hharmless (by simp [hsettler]))
    rw [Option.toList_some, unsettled_concat] at hlost
    rcases hlost with hmade | ⟨-, hunsent⟩
    · cases m <;> exact hmade
    · exact hunsent trivial

/-- **A step keeps the passes** exactly if it loses none. -/
theorem noPassLost_step (trace : List Note) (s : State) (e : Turn) (h : NoPassLost m trace s) :
    NoPassLost m (trace ++ (s.step libs e).2.toList) (s.step libs e).1 ↔
      ¬ Loses libs m trace s e := by
  cases e with
  | composer call => exact noPassLost_composerStep h call
  | settler clock opens => exact noPassLost_settlerStep h clock opens

/-- If `/dev/ebc` always opens, no settle pass is lost that the flag was set for. -/
theorem noPassLost_of_opens {es : List Turn}
    (hopens : ∀ clock opens, .settler clock opens ∈ es → Opens libs opens) {pre : List Turn}
    (hpre : pre <+: es) : NoPassLost .armed (outputs (State.step libs) State.init pre)
      (after (State.step libs) State.init pre) := by
  have hinit : NoPassLost .armed [] State.init := fun _ _ => not_owed_nil
  refine (run_inv_iff noPassLost_step hinit).mpr (along_iff.mpr ?_) pre hpre
  rintro before e rest rfl hloses
  cases e with
  | composer call => exact nomatch hloses.1
  | settler clock opens => exact hloses.2.2.1 (hopens clock opens (by simp))

end Lost

/-- **When no settle pass is lost.** The two threads take their steps in any order, at any readings
of the clock and whether `/dev/ebc` opens or not. No state of the run has a lost settle pass if and
only if no step of it loses one. -/
theorem noPassLost_iff (libs : Libs) (m : Moment) (es : List Turn) :
    (∀ pre, pre <+: es → NoPassLost m (outputs (State.step libs) State.init pre)
        (after (State.step libs) State.init pre)) ↔
      Along (State.step libs) (fun trace s e => ¬ Loses libs m trace s e) [] State.init es := by
  have hinit : NoPassLost m [] State.init := fun _ _ => not_owed_nil
  exact run_inv_iff noPassLost_step hinit

/-- The reading of the clock that a turn brings. -/
def Turn.clock? : Turn → Option ℤ
  | .composer (.commit _ _ env) => some env.clock
  | .composer (.addProperty _ _ _) => none
  | .settler clock _ => some clock

/-- A commit that injects, with settle passes after 400 ms. -/
def settlingCommit : Turn :=
  .composer (.commit 0 false (Env.bare { Tunables.init with settlems := 400 } 1000))

/-- The commit, and a second later a round of the thread in which `/dev/ebc` does not open. -/
def failingTurns : List Turn :=
  List.replicate 5 settlingCommit ++ List.replicate 7 (.settler 2000 false)

/-- The composer is held up for a second before it hands the request on. -/
def lateTurns : List Turn :=
  List.replicate 4 settlingCommit ++ List.replicate 8 (.settler 2000 true) ++ [settlingCommit]

/-- A settle pass is lost where `/dev/ebc` does not open, and where the request is handed on too
late. -/
theorem not_noPassLost_failing :
    (failingTurns.filterMap Turn.clock?).Pairwise (· ≤ ·) ∧
    (∀ m, ¬ ∀ pre, pre <+: failingTurns → NoPassLost m
      (outputs (State.step Libs.all) State.init pre) (after (State.step Libs.all) State.init pre)) ∧
    ¬ ∀ pre, pre <+: lateTurns → NoPassLost .handedOn
      (outputs (State.step Libs.all) State.init pre)
      (after (State.step Libs.all) State.init pre) := by
  refine ⟨by decide +kernel, fun m hall => ?_, fun hall => ?_⟩
  · obtain ⟨i, htrace⟩ : ∃ i, outputs (State.step Libs.all) State.init failingTurns
        = [.armed, .out (.injected 0 i)] := ⟨_, rfl⟩
    refine hall failingTurns (List.prefix_refl _) rfl id ?_
    rw [htrace]
    cases m with
    | armed => exact ⟨[], .armed, [.out (.injected 0 i)], rfl, trivial, by simp [Note.Sent]⟩
    | handedOn => exact ⟨[.armed], .out (.injected 0 i), [], rfl, trivial, nofun⟩
  · obtain ⟨u, i, htrace⟩ : ∃ u i, outputs (State.step Libs.all) State.init lateTurns
        = [.armed, .out (.settled u)] ++ [.out (.injected 0 i)] := ⟨_, _, rfl⟩
    refine hall lateTurns (List.prefix_refl _) rfl id ?_
    rw [htrace]
    exact ⟨_, .out (.injected 0 i), [], rfl, trivial, nofun⟩

end Settle

end PalmaEos
