import Mathlib.Data.List.Induction
import PalmaEos.Lib.Runs
import PalmaEos.Shim

/-!
# Descriptors and mappings of the damage file

`attach_damage` opens the damage file and maps it, and keeps both when the page is valid. It gives
neither back when the mapping fails or the page is not valid, and it tries again 30 commits later.
Nothing else in the library touches the two counts, so a run holds one descriptor for every attempt
that opened the file.

## Main results

* `step_handles` — what one call opens and maps
* `leaksNothing_iff` — a run never holds two descriptors exactly when no attempt opens the file
  after one that opened it for nothing
-/

namespace PalmaEos

/-- The damage file that a call meets. -/
def Event.file : Event → DamageFile
  | .commit _ _ env => env.file
  | _ => .absent

/-- The call is a commit whose attempt to attach opens the damage file. -/
def Opens (libs : Libs) (s : Shim) : Event → Prop
  | .commit _ testOnly env => Drives env testOnly s ∧ s.attached = false ∧
      RECHECK ≤ s.dmgTried + 1 ∧ libs.open_ = true ∧ libs.mmap = true ∧ env.file ≠ .absent
  | _ => False

instance (libs : Libs) (s : Shim) (e : Event) : Decidable (Opens libs s e) :=
  match e with
  | .commit _ _ _ => inferInstanceAs (Decidable (_ ∧ _))
  | .addProperty _ _ _ _ => isFalse id
  | .settle _ _ => isFalse id

/-- At every point of the run the library holds at most one descriptor and at most one mapping of
the damage file. -/
def LeaksNothing (libs : Libs) (es : List Event) : Prop :=
  ∀ pre, pre <+: es → (after (Shim.step libs) Shim.init pre).dmgFds ≤ 1 ∧
    (after (Shim.step libs) Shim.init pre).dmgMaps ≤ 1

/-- Once an attempt has opened the file without attaching to it, no attempt opens it again. -/
def NoneReopens (libs : Libs) (es : List Event) : Prop :=
  ∀ pre c mid d post, es = pre ++ c :: (mid ++ d :: post) →
    Opens libs (after (Shim.step libs) Shim.init pre) c → c.file ≠ .valid →
      ¬ Opens libs (after (Shim.step libs) Shim.init (pre ++ c :: mid)) d

/-! ### One call -/

section Step

variable (libs : Libs) (s : Shim)

/-- An attempt that opens the file takes a descriptor and at most one mapping, and attaches when the
page is valid. -/
theorem attachDamage_opens {file : DamageFile} (hatt : s.attached = false)
    (htried : RECHECK ≤ s.dmgTried + 1) (hopen : libs.open_ = true) (hmmap : libs.mmap = true)
    (hfile : file ≠ .absent) :
    (attachDamage libs file s).dmgFds = s.dmgFds + 1 ∧
      (attachDamage libs file s).dmgMaps ≤ s.dmgMaps + 1 ∧
      ((attachDamage libs file s).attached = true ↔ file = .valid) := by
  rw [attachDamage, if_neg (by simp [hatt]), if_neg (by omega), if_neg (by simp [hopen, hmmap])]
  cases file with
  | absent => exact absurd rfl hfile
  | unmappable => simp [hatt]
  | mismatched => simp [hatt]
  | valid => simp

/-- An attempt that does not open the file changes none of the three variables. -/
theorem attachDamage_idle {file : DamageFile} (h : ¬ (s.attached = false ∧
      RECHECK ≤ s.dmgTried + 1 ∧ libs.open_ = true ∧ libs.mmap = true ∧ file ≠ .absent)) :
    (attachDamage libs file s).dmgFds = s.dmgFds ∧ (attachDamage libs file s).dmgMaps = s.dmgMaps ∧
      (attachDamage libs file s).attached = s.attached := by
  rw [attachDamage]
  split_ifs with hatt htried hlibs
  · exact ⟨rfl, rfl, rfl⟩
  · exact ⟨rfl, rfl, rfl⟩
  · exact ⟨rfl, rfl, rfl⟩
  · have hsymbols : libs.open_ = true ∧ libs.mmap = true := by
      simpa only [Bool.or_eq_true, Bool.not_eq_true', not_or, Bool.not_eq_false] using hlibs
    have habsent : file = .absent := by
      by_contra hfile
      exact h ⟨Bool.not_eq_true _ ▸ hatt, by omega, hsymbols.1, hsymbols.2, hfile⟩
    rw [habsent]
    exact ⟨rfl, rfl, rfl⟩

/-- A commit changes the three variables in `attach_damage` only. -/
theorem commit_handles (env : Env) (testOnly : Bool) :
    ∃ s', s' = (if Drives env testOnly s then prepare libs env s else s) ∧
      (drmModeAtomicCommit libs env testOnly s).1.dmgFds = s'.dmgFds ∧
      (drmModeAtomicCommit libs env testOnly s).1.dmgMaps = s'.dmgMaps ∧
      (drmModeAtomicCommit libs env testOnly s).1.attached = s'.attached := by
  refine ⟨_, rfl, ?_⟩
  rcases drmModeAtomicCommit_cases libs env testOnly s with
    ⟨hno, heq⟩ | ⟨hdrives, -, heq⟩ | ⟨hdrives, -, -, heq⟩
  · obtain ⟨c, t, href⟩ := refreshTunables_frame s env.props
    rw [if_neg hno, heq, href]
    exact ⟨rfl, rfl, rfl⟩
  · rw [if_pos hdrives, heq]
    exact ⟨rfl, rfl, rfl⟩
  · obtain ⟨cache, fbid, started, running, hframe⟩ :=
      inject_frame libs env (observed env (prepare libs env s))
        (snapshot env (prepare libs env s)) (sinceInject libs env (prepare libs env s))
    rw [if_pos hdrives, heq]
    dsimp only
    rw [hframe]
    exact ⟨rfl, rfl, rfl⟩

/-- **One call.** A call that opens the file takes one descriptor and at most one mapping, and
attaches when the page is valid; every other call leaves the three variables alone. -/
theorem step_handles (e : Event) :
    if Opens libs s e then
      s.attached = false ∧ (s.step libs e).1.dmgFds = s.dmgFds + 1 ∧
        (s.step libs e).1.dmgMaps ≤ s.dmgMaps + 1 ∧
        ((s.step libs e).1.attached = true ↔ e.file = .valid)
    else
      (s.step libs e).1.dmgFds = s.dmgFds ∧ (s.step libs e).1.dmgMaps = s.dmgMaps ∧
        (s.step libs e).1.attached = s.attached := by
  cases e with
  | addProperty req obj prop value => exact ⟨rfl, rfl, rfl⟩
  | settle clock opens =>
    simp only [Shim.step]
    rcases settleTick_cases libs clock opens s with ⟨b, -, heq⟩ | ⟨-, heq⟩
    · rw [heq]
      exact ⟨rfl, rfl, rfl⟩
    · rw [heq]
      exact ⟨rfl, rfl, rfl⟩
  | commit req testOnly env =>
    obtain ⟨s', hs', hfds, hmaps, hatt⟩ := commit_handles libs s env testOnly
    change if Opens libs s (.commit req testOnly env) then
        s.attached = false ∧ (drmModeAtomicCommit libs env testOnly s).1.dmgFds = s.dmgFds + 1 ∧
          (drmModeAtomicCommit libs env testOnly s).1.dmgMaps ≤ s.dmgMaps + 1 ∧
          ((drmModeAtomicCommit libs env testOnly s).1.attached = true ↔ env.file = .valid)
      else
        (drmModeAtomicCommit libs env testOnly s).1.dmgFds = s.dmgFds ∧
          (drmModeAtomicCommit libs env testOnly s).1.dmgMaps = s.dmgMaps ∧
          (drmModeAtomicCommit libs env testOnly s).1.attached = s.attached
    rw [hfds, hmaps, hatt, hs']
    by_cases hdrives : Drives env testOnly s
    · obtain ⟨c, t, href⟩ := refreshTunables_frame s env.props
      rw [if_pos hdrives, prepare, href]
      by_cases hopens : Opens libs s (.commit req testOnly env)
      · rw [if_pos hopens]
        obtain ⟨-, hunattached, htried, hopen, hmmap, hfile⟩ := hopens
        exact ⟨hunattached, attachDamage_opens libs { s with commitsSinceRecheck := c, tun := t }
          hunattached htried hopen hmmap hfile⟩
      · rw [if_neg hopens]
        exact attachDamage_idle libs { s with commitsSinceRecheck := c, tun := t }
          fun h => hopens ⟨hdrives, h⟩
    · rw [if_neg hdrives, if_neg fun h => hdrives h.1]
      exact ⟨rfl, rfl, rfl⟩

end Step

/-! ### Whole runs -/

section Runs

variable {libs : Libs} {s : Shim} {es : List Event}

/-- Descriptors are never closed. -/
theorem dmgFds_le_after : s.dmgFds ≤ (after (Shim.step libs) s es).dmgFds := by
  induction es generalizing s with
  | nil => exact le_rfl
  | cons e es ih =>
    have hstep := step_handles libs s e
    have hrest := ih (s := (s.step libs e).1)
    rw [after]
    split_ifs at hstep
    · omega
    · omega

/-- What a run holds: nothing yet, or one descriptor, to the file it is attached to or to one that
an earlier attempt opened for nothing. -/
theorem handles_of_noneReopens (h : NoneReopens libs es) {pre : List Event} (hpre : pre <+: es) :
    (after (Shim.step libs) Shim.init pre).dmgMaps
        ≤ (after (Shim.step libs) Shim.init pre).dmgFds ∧
      ((after (Shim.step libs) Shim.init pre).dmgFds = 0 ∨
        (after (Shim.step libs) Shim.init pre).dmgFds = 1 ∧
          ((after (Shim.step libs) Shim.init pre).attached = true ∨
            ∃ p c q, pre = p ++ c :: q ∧ Opens libs (after (Shim.step libs) Shim.init p) c ∧
              c.file ≠ .valid)) := by
  induction pre using List.reverseRecOn with
  | nil => exact ⟨le_rfl, Or.inl rfl⟩
  | append_singleton pre e ih =>
    obtain ⟨hle, hbefore⟩ := ih ((List.prefix_append pre [e]).trans hpre)
    have hstep := step_handles libs (after (Shim.step libs) Shim.init pre) e
    rw [after_append]
    change ((after (Shim.step libs) Shim.init pre).step libs e).1.dmgMaps
        ≤ ((after (Shim.step libs) Shim.init pre).step libs e).1.dmgFds ∧
      (((after (Shim.step libs) Shim.init pre).step libs e).1.dmgFds = 0 ∨
        ((after (Shim.step libs) Shim.init pre).step libs e).1.dmgFds = 1 ∧
          (((after (Shim.step libs) Shim.init pre).step libs e).1.attached = true ∨ _))
    by_cases hopens : Opens libs (after (Shim.step libs) Shim.init pre) e
    · rw [if_pos hopens] at hstep
      obtain ⟨hunattached, hfds, hmaps, hatt⟩ := hstep
      -- the descriptor held before would be one that an earlier attempt opened for nothing
      have hnone : (after (Shim.step libs) Shim.init pre).dmgFds = 0 := by
        rcases hbefore with hnone | ⟨-, hatt' | ⟨p, c, q, rfl, hopened, hinvalid⟩⟩
        · exact hnone
        · simp [hunattached] at hatt'
        · obtain ⟨post, rfl⟩ := hpre
          refine absurd hopens (h p c q e post ?_ hopened hinvalid)
          simp
      refine ⟨by omega, Or.inr ⟨by omega, ?_⟩⟩
      by_cases hvalid : e.file = .valid
      · exact Or.inl (hatt.mpr hvalid)
      · exact Or.inr ⟨pre, e, [], rfl, hopens, hvalid⟩
    · rw [if_neg hopens] at hstep
      obtain ⟨hfds, hmaps, hatt⟩ := hstep
      rw [hfds, hmaps, hatt]
      refine ⟨hle, hbefore.imp_right fun ⟨hone, hcase⟩ => ⟨hone, hcase.imp_right ?_⟩⟩
      rintro ⟨p, c, q, rfl, hopened, hinvalid⟩
      exact ⟨p, c, q ++ [e], by simp, hopened, hinvalid⟩

/-- **When attaching leaks nothing.** In a run, whatever becomes of the damage file, the library
holds at most one descriptor and at most one mapping at every point exactly when no attempt opens
the file after one that opened it without attaching to it. -/
theorem leaksNothing_iff (libs : Libs) (es : List Event) :
    LeaksNothing libs es ↔ NoneReopens libs es := by
  constructor
  · rintro h pre c mid d post rfl hfirst hinvalid hagain
    have hc := step_handles libs (after (Shim.step libs) Shim.init pre) c
    have hd := step_handles libs (after (Shim.step libs) Shim.init (pre ++ c :: mid)) d
    rw [if_pos hfirst] at hc
    rw [if_pos hagain] at hd
    have hmono : ((after (Shim.step libs) Shim.init pre).step libs c).1.dmgFds
        ≤ (after (Shim.step libs) ((after (Shim.step libs) Shim.init pre).step libs c).1
          mid).dmgFds :=
      dmgFds_le_after
    have hmid : after (Shim.step libs) Shim.init (pre ++ c :: mid)
        = after (Shim.step libs) ((after (Shim.step libs) Shim.init pre).step libs c).1 mid := by
      rw [after_append, after]
    have htwo := (h (pre ++ c :: mid ++ [d]) ⟨post, by simp⟩).1
    rw [after_append, after, after, hd.2.1, hmid] at htwo
    omega
  · intro h pre hpre
    obtain ⟨hle, hcases⟩ := handles_of_noneReopens h hpre
    omega

end Runs

/-- A damage file whose page is not valid is opened and mapped again 30 commits after the first
attempt. -/
theorem not_leaksNothing_mismatched : ¬ LeaksNothing .all
    (List.replicate 31 (.commit 0 false { Env.bare Tunables.init 1 with file := .mismatched })) :=
  fun h => absurd (h _ (List.prefix_refl _)).1 (by decide +kernel)

end PalmaEos
