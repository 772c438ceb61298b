import PalmaEos.Lib.Runs
import PalmaEos.Shim

/-!
# Delayed frames

With a positive `t_interval` a real commit that comes too soon after an injection returns without
injecting. The frame it carries should then be driven by the first later real commit that is not
too soon. But the change detector has remembered the frame by then: `read_damage` stores the
sequence number, and the signature is stored before the rate limit is looked at. So the later
commit injects only when it has something newer to show than the commits that were held back.

## Main results

* `step_lastDmgSeq`, `step_lastFbSig` — the shim remembers what its real commits saw, driven or not
* `notDropped_iff` — a delayed frame is driven exactly when the commit that should drive it shows
  something that no commit before it saw
-/

namespace PalmaEos

section Delayed

variable (libs : Libs)

/-- The commit carries new content: SurfaceFlinger's sequence number differs from `last_dmg_seq`,
or, without a damage map, the framebuffer signature differs from `last_fb_sig`. -/
def CarriesNew (env : Env) (s : Shim) : Prop :=
  s.attached = true ∧ ((firstStable env.views).any fun v => v.seq₁ ≠ s.lastDmgSeq) = true ∨
    s.attached = false ∧ fbSig s.pend ≠ s.lastFbSig

instance (env : Env) (s : Shim) : Decidable (CarriesNew env s) :=
  inferInstanceAs (Decidable (_ ∧ _ ∨ _ ∧ _))

/-- A real commit with new content that the rate limit holds back. -/
def HeldBack (s : Shim) : Event → Prop
  | .commit _ testOnly env => Drives env testOnly s ∧ CarriesNew env (prepare libs env s) ∧
      Throttled libs env (prepare libs env s)
  | _ => False

instance (s : Shim) (e : Event) : Decidable (HeldBack libs s e) :=
  match e with
  | .commit _ _ _ => inferInstanceAs (Decidable (_ ∧ _))
  | .addProperty _ _ _ _ => isFalse id
  | .settle _ _ => isFalse id

/-- A real commit that the rate limit lets through. -/
def Due (s : Shim) : Event → Prop
  | .commit _ testOnly env => Drives env testOnly s ∧ ¬ Throttled libs env (prepare libs env s)
  | _ => False

instance (s : Shim) (e : Event) : Decidable (Due libs s e) :=
  match e with
  | .commit _ _ _ => inferInstanceAs (Decidable (_ ∧ _))
  | .addProperty _ _ _ _ => isFalse id
  | .settle _ _ => isFalse id

/-- What a commit finds is newer than what the shim remembers: the read of the page gives up or
accepts a sequence number other than `last_dmg_seq`, or, without a damage map, signatures are not
compared or differ from `last_fb_sig`. -/
def FindsNewer (s : Shim) : Event → Prop
  | .commit _ _ env =>
    if (prepare libs env s).attached = true then
      ∀ v, firstStable env.views = some v → v.seq₁ ≠ (prepare libs env s).lastDmgSeq
    else (prepare libs env s).tun.skipsame = 0 ∨ (prepare libs env s).fbidProp = 0 ∨
      fbSig (prepare libs env s).pend ≠ (prepare libs env s).lastFbSig
  | _ => False

/-- `d` is the first real commit that is let through after `c`, which was held back. -/
structure FirstDue (s : Shim) (es pre mid post : List Event) (c d : Event) : Prop where
  split : es = pre ++ c :: (mid ++ d :: post)
  held : HeldBack libs (after (Shim.step libs) s pre) c
  between : Along (Shim.step libs) (fun _ s e => ¬ Due libs s e) []
    (after (Shim.step libs) s (pre ++ [c])) mid
  due : Due libs (after (Shim.step libs) s (pre ++ c :: mid)) d

/-- Every delayed frame is driven. -/
def NotDropped (s : Shim) (es : List Event) : Prop :=
  ∀ pre mid post c d, FirstDue libs s es pre mid post c d →
    ((after (Shim.step libs) s (pre ++ c :: mid)).step libs d).2.isSome

end Delayed

section Detector

variable {libs : Libs} {env : Env} {s : Shim}

theorem fires_iff {req : ℕ} {testOnly : Bool} : Fires env (prepare libs env s) ↔
    FindsNewer libs s (.commit req testOnly env) := by
  rw [FindsNewer]
  generalize prepare libs env s = p
  cases hatt : p.attached with
  | true =>
    have hchanged : (snapshot env p).changed = true ↔
        ∀ v, firstStable env.views = some v → v.seq₁ ≠ p.lastDmgSeq := by
      rw [snapshot, hatt, readDamage]
      cases firstStable env.views with
      | none => simp
      | some v => simp
    rw [if_pos rfl, ← hchanged]
    simp [Fires, hatt]
  | false =>
    rw [if_neg (by decide)]
    simp only [Fires, ComparesFbs, hatt]
    simp only [Bool.false_eq_true, false_and, true_and, false_or]
    tauto

/-- A commit that is let through injects exactly when it finds something newer. -/
theorem isSome_step_of_due {e : Event} (hdue : Due libs s e) :
    (s.step libs e).2.isSome ↔ FindsNewer libs s e := by
  cases e with
  | commit req testOnly env =>
    obtain ⟨hdrives, hthr⟩ := hdue
    rw [← fires_iff]
    simp only [Shim.step]
    rcases drmModeAtomicCommit_cases libs env testOnly s with
      ⟨hno, -⟩ | ⟨-, hheld, heq⟩ | ⟨-, hfires, -, heq⟩
    · exact absurd hdrives hno
    · rw [heq]
      constructor
      · intro h
        simp at h
      · intro h
        exact absurd h (hheld.resolve_right hthr)
    · rw [heq]
      exact ⟨fun _ => hfires, fun _ => rfl⟩
  | addProperty => exact hdue.elim
  | settle => exact hdue.elim

end Detector

/-! ### What the shim remembers -/

section Remembers

variable (libs : Libs)

/-- The sequence number that a real commit accepts from the damage page. -/
def accepts (s : Shim) : Event → Option UInt32
  | .commit _ testOnly env =>
    if Drives env testOnly s ∧ (prepare libs env s).attached = true then
      (firstStable env.views).map View.seq₁
    else none
  | _ => none

/-- The framebuffer signature that a real commit compares. -/
def compares (s : Shim) : Event → Option UInt32
  | .commit _ testOnly env =>
    if Drives env testOnly s ∧ ComparesFbs (prepare libs env s) then
      some (fbSig (prepare libs env s).pend)
    else none
  | _ => none

variable {libs}

/-- A commit that drives the panel remembers what it has seen, whether it injects or not. -/
theorem commit_remembers (env : Env) (testOnly : Bool) (s : Shim) :
    (drmModeAtomicCommit libs env testOnly s).1.lastDmgSeq
        = (if Drives env testOnly s then observed env (prepare libs env s) else s).lastDmgSeq ∧
      (drmModeAtomicCommit libs env testOnly s).1.lastFbSig
        = (if Drives env testOnly s then observed env (prepare libs env s) else s).lastFbSig := by
  rcases drmModeAtomicCommit_cases libs env testOnly s with
    ⟨hno, heq⟩ | ⟨hdrives, -, heq⟩ | ⟨hdrives, -, -, heq⟩
  · obtain ⟨c, t, href⟩ := refreshTunables_frame s env.props
    rw [heq, if_neg hno, href]
    exact ⟨rfl, rfl⟩
  · rw [heq, if_pos hdrives]
    exact ⟨rfl, rfl⟩
  · obtain ⟨cache, fbid, started, running, hframe⟩ :=
      inject_frame libs env (observed env (prepare libs env s)) (snapshot env (prepare libs env s))
        (sinceInject libs env (prepare libs env s))
    rw [heq, if_pos hdrives]
    dsimp only
    rw [hframe]
    exact ⟨rfl, rfl⟩

theorem settle_remembers (clock : ℤ) (opens : Bool) (s : Shim) :
    (settleTick libs clock opens s).1.lastDmgSeq = s.lastDmgSeq ∧
      (settleTick libs clock opens s).1.lastFbSig = s.lastFbSig := by
  rcases settleTick_cases libs clock opens s with ⟨b, -, heq⟩ | ⟨-, heq⟩
  · rw [heq]
    exact ⟨rfl, rfl⟩
  · rw [heq]
    exact ⟨rfl, rfl⟩

theorem observed_lastDmgSeq (env : Env) (s : Shim) : (observed env s).lastDmgSeq
    = (if s.attached = true then (firstStable env.views).map View.seq₁ else none).getD
        s.lastDmgSeq := by
  rw [observed, readDamage]
  cases hatt : s.attached with
  | false => rfl
  | true =>
    cases firstStable env.views with
    | none => rfl
    | some v => rfl

theorem observed_lastFbSig (env : Env) (s : Shim) : (observed env s).lastFbSig
    = (if ComparesFbs s then some (fbSig s.pend) else none).getD s.lastFbSig := by
  rw [observed]
  by_cases hcmp : ComparesFbs s
  · rw [if_pos hcmp, if_pos hcmp]
    rfl
  · rw [if_neg hcmp, if_neg hcmp]
    rfl

/-- `last_dmg_seq` is the sequence number accepted last. -/
theorem step_lastDmgSeq (s : Shim) (e : Event) :
    (s.step libs e).1.lastDmgSeq = (accepts libs s e).getD s.lastDmgSeq := by
  cases e with
  | addProperty => rfl
  | settle clock opens => exact (settle_remembers clock opens s).1
  | commit req testOnly env =>
    refine (commit_remembers env testOnly s).1.trans ?_
    rw [accepts]
    by_cases hdrives : Drives env testOnly s
    · obtain ⟨c, t, tried, fds, maps, att, hprep⟩ := prepare_frame libs env s
      simp only [hdrives, if_true, true_and, observed_lastDmgSeq]
      rw [hprep]
    · simp only [hdrives, if_false, false_and, Option.getD_none]

/-- `last_fb_sig` is the signature compared last. -/
theorem step_lastFbSig (s : Shim) (e : Event) :
    (s.step libs e).1.lastFbSig = (compares libs s e).getD s.lastFbSig := by
  cases e with
  | addProperty => rfl
  | settle clock opens => exact (settle_remembers clock opens s).2
  | commit req testOnly env =>
    refine (commit_remembers env testOnly s).2.trans ?_
    rw [compares]
    by_cases hdrives : Drives env testOnly s
    · obtain ⟨c, t, tried, fds, maps, att, hprep⟩ := prepare_frame libs env s
      simp only [hdrives, if_true, true_and, observed_lastFbSig]
      rw [hprep]
    · simp only [hdrives, if_false, false_and, Option.getD_none]

end Remembers

/-- After the run `es`, the commit shows something that no real commit of the run has seen last,
driven or not: its read of the page gives up or accepts a sequence number other than the one
accepted last, or, without a damage map, signatures are not compared or its own is not the one
compared last. -/
def ShowsNew (libs : Libs) (s : Shim) (es : List Event) : Event → Prop
  | .commit _ _ env =>
    let p := prepare libs env (after (Shim.step libs) s es)
    if p.attached = true then ∀ v, firstStable env.views = some v →
      v.seq₁ ≠ (lastFound (Shim.step libs) (accepts libs) s es).getD s.lastDmgSeq
    else p.tun.skipsame = 0 ∨ p.fbidProp = 0 ∨
      fbSig p.pend ≠ (lastFound (Shim.step libs) (compares libs) s es).getD s.lastFbSig
  | _ => False

theorem findsNewer_iff {libs : Libs} {s : Shim} {es : List Event} {e : Event} :
    FindsNewer libs (after (Shim.step libs) s es) e ↔ ShowsNew libs s es e := by
  cases e with
  | commit req testOnly env =>
    obtain ⟨c, t, tried, fds, maps, att, hprep⟩ :=
      prepare_frame libs env (after (Shim.step libs) s es)
    rw [FindsNewer, ShowsNew, ← after_eq_lastFound step_lastDmgSeq,
      ← after_eq_lastFound step_lastFbSig, hprep]
  | addProperty => exact Iff.rfl
  | settle => exact Iff.rfl

/-- **When delayed frames are driven.** In every run, from any state, every frame that was held
back is driven by the first real commit let through after it, exactly when each such commit shows
something that the real commits before it, the ones held back among them, have not seen. -/
theorem notDropped_iff (libs : Libs) (s : Shim) (es : List Event) :
    NotDropped libs s es ↔
      ∀ pre mid post c d, FirstDue libs s es pre mid post c d →
        ShowsNew libs s (pre ++ c :: mid) d := by
  constructor
  · intro h pre mid post c d hfirst
    exact findsNewer_iff.mp ((isSome_step_of_due hfirst.due).mp (h pre mid post c d hfirst))
  · intro h pre mid post c d hfirst
    exact (isSome_step_of_due hfirst.due).mpr (findsNewer_iff.mpr (h pre mid post c d hfirst))

/-! ### A frame that is dropped -/

/-- A commit with the damage map in place, at rest with sequence number `seq`. -/
def pacedCommit (req : ℕ) (seq : UInt32) (clock : ℤ) : Event :=
  .commit req false { Env.bare { Tunables.init with interval := 100 } clock with
    file := .valid
    views := fun _ => ⟨seq, 1, 0, fun _ => ⟨0, 0, 10, 10⟩, seq⟩ }

/-- SurfaceFlinger publishes before the first two commits. The second is held back, and the third,
long after, finds nothing new. -/
theorem not_notDropped_paced : ¬ NotDropped Libs.all Shim.init
    [pacedCommit 0 2 1000, pacedCommit 1 4 1050, pacedCommit 2 4 2000] := by
  intro h
  have hsome := h [pacedCommit 0 2 1000] [] [] (pacedCommit 1 4 1050) (pacedCommit 2 4 2000)
    ⟨rfl, by decide, trivial, by decide⟩
  revert hsome
  decide

end PalmaEos
