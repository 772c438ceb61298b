import Mathlib.Data.Nat.ModEq
import Mathlib.Tactic.Ring
import PalmaEos.DelayedFrames
import PalmaEos.Injections

/-!
# The framebuffer signature

Without a damage map the shim suppresses a commit that shows what the panel shows already. It
compares not the lists of objects and framebuffers but a 32-bit signature of them, a sum weighted
by powers of 31 that wraps. Lists that differ may have one signature: two framebuffer ids that move
by 1 and by -31 are enough.

## Main results

* `fbSig_eq_iff` — two signatures are equal when the weighted sums agree modulo 2^32
* `after_lastFbSig` — the signature that the shim remembers is that of the list injected last
* `exactSuppression_iff` — suppression is exact unless two lists collide
-/

namespace PalmaEos

/-- The weighted sum of a list, before it wraps. -/
def weight : List (UInt32 × UInt32) → ℕ
  | [] => 0
  | p :: l => (p.1.toNat * 131 + p.2.toNat) * 31 ^ l.length + weight l

theorem foldl_sig_toNat (l : List (UInt32 × UInt32)) (sig : UInt32) :
    (l.foldl (fun sig p => sig * 31 + p.1 * 131 + p.2) sig).toNat
      ≡ sig.toNat * 31 ^ l.length + weight l [MOD 2 ^ 32] := by
  induction l generalizing sig with
  | nil =>
    rw [List.foldl_nil, weight, List.length_nil, pow_zero, Nat.mul_one, Nat.add_zero]
  | cons p l ih =>
    have hstep : (sig * 31 + p.1 * 131 + p.2).toNat
        ≡ sig.toNat * 31 + (p.1.toNat * 131 + p.2.toNat) [MOD 2 ^ 32] := by
      simp only [UInt32.toNat_add, UInt32.toNat_mul, UInt32.toNat_ofNat, Nat.ModEq]
      omega
    rw [List.foldl_cons]
    calc (l.foldl (fun sig p => sig * 31 + p.1 * 131 + p.2) (sig * 31 + p.1 * 131 + p.2)).toNat
        ≡ (sig * 31 + p.1 * 131 + p.2).toNat * 31 ^ l.length + weight l [MOD 2 ^ 32] := ih _
      _ ≡ (sig.toNat * 31 + (p.1.toNat * 131 + p.2.toNat)) * 31 ^ l.length + weight l
          [MOD 2 ^ 32] := (hstep.mul_right _).add_right _
      _ = sig.toNat * 31 ^ (p :: l).length + weight (p :: l) := by
          rw [weight, List.length_cons, pow_succ]
          ring

/-- **Two signatures are equal** when the weighted sums agree modulo 2^32. -/
theorem fbSig_eq_iff (l l' : List (UInt32 × UInt32)) :
    fbSig l = fbSig l' ↔ weight l ≡ weight l' [MOD 2 ^ 32] := by
  have hsig : ∀ l, (fbSig l).toNat ≡ weight l [MOD 2 ^ 32] := by
    intro l
    have hfold := foldl_sig_toNat l 0
    rwa [UInt32.toNat_zero, Nat.zero_mul, Nat.zero_add] at hfold
  rw [← UInt32.toNat_inj]
  constructor
  · intro heq
    exact (hsig l).symm.trans (heq ▸ hsig l')
  · intro hweight
    have hmod : (fbSig l).toNat ≡ (fbSig l').toNat [MOD 2 ^ 32] :=
      (hsig l).trans (hweight.trans (hsig l').symm)
    exact hmod.eq_of_lt_of_lt (fbSig l).toNat_lt (fbSig l').toNat_lt

/-! ### Suppression -/

section Suppression

variable (libs : Libs)

/-- The list that a commit has recorded when it injects. -/
def injectedList (s : Shim) : Event → Option (List (UInt32 × UInt32))
  | .commit _ testOnly env => if Injects libs env testOnly s then some s.pend else none
  | _ => none

/-- The same for a commit that knows `FB_ID`. -/
def knownList (s : Shim) : Event → Option (List (UInt32 × UInt32))
  | .commit _ testOnly env =>
    if Injects libs env testOnly s ∧ s.fbidProp ≠ 0 then some s.pend else none
  | _ => none

/-- A commit is suppressed as unchanged: it would drive the panel, but shows the signature that the
shim remembers. -/
def Suppressed (s : Shim) : Event → Prop
  | .commit _ testOnly env => Drives env testOnly s ∧ ComparesFbs (prepare libs env s) ∧
      fbSig (prepare libs env s).pend = (prepare libs env s).lastFbSig
  | _ => False

/-- **Suppression is exact**: a commit is suppressed only if its list is the one recorded for the
most recent commit that injected. -/
def ExactSuppression (es : List Event) : Prop :=
  ∀ pre e post, es = pre ++ e :: post → Suppressed libs (after (Shim.step libs) Shim.init pre) e →
    lastFound (Shim.step libs) (injectedList libs) Shim.init pre
      = some (after (Shim.step libs) Shim.init pre).pend

/-- A commit meets the tunables `t`, and a damage map is not attached when it looks. -/
def Unmapped (t : Tunables) (s : Shim) : Event → Prop
  | .commit _ testOnly env => env.props = t ∧ Tuned t s ∧
      (Drives env testOnly s → (prepare libs env s).attached = false)
  | _ => True

end Suppression

section Signature

variable {libs : Libs} {t : Tunables} {s : Shim} {env : Env} {testOnly : Bool}

/-- What a commit finds that meets fixed tunables and no damage map. -/
theorem prepare_unmapped (h : Tuned t s) (hprops : env.props = t) : ∃ c tried fds maps att,
    prepare libs env s = { s with
      commitsSinceRecheck := c
      tun := t
      dmgTried := tried
      dmgFds := fds
      dmgMaps := maps
      attached := att } := by
  obtain ⟨c, href⟩ := h.refreshTunables_eq
  obtain ⟨tried, fds, maps, att, hatt⟩ :=
    attachDamage_frame libs (refreshTunables env.props s) env.file
  rw [prepare, hatt, hprops, href]
  exact ⟨c, tried, fds, maps, att, rfl⟩

theorem drives_iff (h : Tuned t s) (hprops : env.props = t) :
    Drives env testOnly s ↔ testOnly = false ∧ t.enable ≠ 0 := by
  rw [Drives, hprops, h.refreshed]

/-- Without a damage map, a commit that drives the panel compares signatures when it knows
`FB_ID`. -/
theorem comparesFbs_iff (h : Tuned t s) (hprops : env.props = t) (hskip : t.skipsame ≠ 0)
    (hatt : (prepare libs env s).attached = false) :
    ComparesFbs (prepare libs env s) ↔ s.fbidProp ≠ 0 := by
  obtain ⟨c, tried, fds, maps, att, hprep⟩ := prepare_unmapped h hprops
  rw [ComparesFbs, hatt, hprep]
  exact ⟨fun hall => hall.2.2, fun hknown => ⟨rfl, hskip, hknown⟩⟩

/-- **When an unpaced commit that drives the panel injects**: `FB_ID` is not known, or the signature
is another one. -/
theorem injects_iff (h : Tuned t s) (hprops : env.props = t) (hskip : t.skipsame ≠ 0)
    (hinterval : t.interval = 0) (hatt : (prepare libs env s).attached = false)
    (hdrives : Drives env testOnly s) :
    Injects libs env testOnly s ↔ ¬ (s.fbidProp ≠ 0 ∧ fbSig s.pend = s.lastFbSig) := by
  have hcompares := comparesFbs_iff h hprops hskip hatt
  obtain ⟨c, tried, fds, maps, att, hprep⟩ := prepare_unmapped h hprops
  have hthrottled : ¬ Throttled libs env (prepare libs env s) := by
    rw [Throttled, hprep]
    dsimp only
    rw [hinterval]
    exact fun hall => lt_irrefl _ hall.1
  have hfires : Fires env (prepare libs env s) ↔
      ¬ (s.fbidProp ≠ 0 ∧ fbSig s.pend = s.lastFbSig) := by
    rw [Fires, hatt, hcompares, hprep]
    simp
  rw [Injects, hfires]
  exact ⟨fun hall => hall.2.1, fun hnew => ⟨hdrives, hnew, hthrottled⟩⟩

/-- **One step of the signature**: it is that of the list that the step injects knowing `FB_ID`. -/
theorem step_lastFbSig_known (hskip : t.skipsame ≠ 0) (hinterval : t.interval = 0) (e : Event)
    (h : Unmapped libs t s e) :
    (s.step libs e).1.lastFbSig = ((knownList libs s e).map fbSig).getD s.lastFbSig := by
  rw [step_lastFbSig]
  cases e with
  | addProperty => rfl
  | settle => rfl
  | commit req testOnly env =>
    obtain ⟨hprops, htuned, hunmapped⟩ := h
    rw [compares, knownList]
    by_cases hdrives : Drives env testOnly s
    · have hatt := hunmapped hdrives
      have hcompares := comparesFbs_iff htuned hprops hskip hatt
      have hinjects := injects_iff htuned hprops hskip hinterval hatt hdrives
      have hpend : (prepare libs env s).pend = s.pend := by
        obtain ⟨c, tried, fds, maps, att, hprep⟩ := prepare_unmapped htuned hprops
        rw [hprep]
      by_cases hknown : s.fbidProp ≠ 0
      · rw [if_pos ⟨hdrives, hcompares.mpr hknown⟩, hpend]
        by_cases hsame : fbSig s.pend = s.lastFbSig
        · rw [if_neg fun hall => hinjects.mp hall.1 ⟨hknown, hsame⟩]
          exact hsame
        · rw [if_pos ⟨hinjects.mpr fun hall => hsame hall.2, hknown⟩]
          rfl
      · rw [if_neg fun hall => hknown (hcompares.mp hall.2), if_neg fun hall => hknown hall.2]
        rfl
    · rw [if_neg fun hall => hdrives hall.1, if_neg fun hall => hdrives hall.1.1]
      rfl

/-- A commit that drives the panel leaves the damage map as it finds it; others do not try. -/
theorem commit_attached : (drmModeAtomicCommit libs env testOnly s).1.attached
    = if Drives env testOnly s then (prepare libs env s).attached else s.attached := by
  rcases drmModeAtomicCommit_cases libs env testOnly s with
    ⟨hno, heq⟩ | ⟨hdrives, -, heq⟩ | ⟨hdrives, -, -, heq⟩
  · obtain ⟨c, t', href⟩ := refreshTunables_frame s env.props
    rw [heq, if_neg hno, href]
    rfl
  · rw [heq, if_pos hdrives]
    rfl
  · obtain ⟨cache, fbid, started, running, hframe⟩ :=
      inject_frame libs env (observed env (prepare libs env s))
        (snapshot env (prepare libs env s)) (sinceInject libs env (prepare libs env s))
    rw [heq, if_pos hdrives]
    dsimp only
    rw [hframe]
    rfl

/-- A damage map that is attached stays attached. -/
theorem after_attached (h : s.attached = true) (es : List Event) :
    (after (Shim.step libs) s es).attached = true := by
  induction es generalizing s with
  | nil => exact h
  | cons e es ih =>
    refine ih ?_
    cases e with
    | addProperty => exact h
    | settle clock opens =>
      simp only [Shim.step]
      rcases settleTick_cases libs clock opens s with ⟨b, -, heq⟩ | ⟨-, heq⟩
      · rw [heq]
        exact h
      · rw [heq]
        exact h
    | commit req testOnly env =>
      simp only [Shim.step, commit_attached]
      obtain ⟨c, t', href⟩ := refreshTunables_frame s env.props
      split_ifs
      · rw [prepare, attachDamage, href, if_pos h]
        exact h
      · exact h

/-- In a run with fixed tunables that ends without a damage map, no commit has one. -/
theorem along_unmapped {es : List Event}
    (hprops : ∀ req testOnly env, .commit req testOnly env ∈ es → env.props = t)
    (hatt : (after (Shim.step libs) Shim.init es).attached = false) :
    Along (Shim.step libs) (fun _ s e => Unmapped libs t s e) [] Shim.init es := by
  refine along_iff.mpr fun pre e post hes => ?_
  cases e with
  | addProperty => trivial
  | settle => trivial
  | commit req testOnly env =>
    have htuned : Tuned t (after (Shim.step libs) Shim.init pre) :=
      after_tuned libs fun req' testOnly' env' hmem =>
        hprops req' testOnly' env' (by simp [hes, hmem])
    refine ⟨hprops req testOnly env (by simp [hes]), htuned, fun hdrives => ?_⟩
    by_contra hyes
    have hstep : ((after (Shim.step libs) Shim.init pre).step libs
        (.commit req testOnly env)).1.attached = true := by
      simp only [Shim.step, commit_attached, if_pos hdrives]
      simpa using hyes
    rw [hes, after_append, after, after_attached hstep post] at hatt
    cases hatt

/-- **What the shim remembers** is the signature of the list injected last with `FB_ID` known. -/
theorem after_lastFbSig (hskip : t.skipsame ≠ 0) (hinterval : t.interval = 0) {es : List Event}
    (hes : Along (Shim.step libs) (fun _ s e => Unmapped libs t s e) [] Shim.init es) :
    (after (Shim.step libs) Shim.init es).lastFbSig
      = fbSig ((lastFound (Shim.step libs) (knownList libs) Shim.init es).getD []) := by
  rw [after_eq_lastFound_of_along (fun _ s e h => step_lastFbSig_known hskip hinterval e h) hes,
    lastFound_map]
  cases lastFound (Shim.step libs) (knownList libs) Shim.init es with
  | none => rfl
  | some l => rfl

theorem suppressed_iff {req : ℕ} (hskip : t.skipsame ≠ 0)
    (h : Unmapped libs t s (.commit req testOnly env)) :
    Suppressed libs s (.commit req testOnly env) ↔
      testOnly = false ∧ t.enable ≠ 0 ∧ s.fbidProp ≠ 0 ∧ fbSig s.pend = s.lastFbSig := by
  obtain ⟨hprops, htuned, hunmapped⟩ := h
  rw [Suppressed]
  by_cases hdrives : Drives env testOnly s
  · have hcompares := comparesFbs_iff htuned hprops hskip (hunmapped hdrives)
    obtain ⟨c, tried, fds, maps, att, hprep⟩ := prepare_unmapped htuned hprops
    rw [hcompares, hprep]
    have hdrives' := (drives_iff htuned hprops).mp hdrives
    exact ⟨fun hall => ⟨hdrives'.1, hdrives'.2, hall.2⟩, fun hall => ⟨hdrives, hall.2.2⟩⟩
  · refine iff_of_false (fun hall => hdrives hall.1) fun hall => hdrives ?_
    exact (drives_iff htuned hprops).mpr ⟨hall.1, hall.2.1⟩

end Signature

/-- **When suppression is exact.** Without a damage map, with fixed tunables that compare
framebuffers and do not pace, suppression is exact in the whole run if and only if no real commit
that knows `FB_ID` has a list that differs from the one injected last and collides with the one
injected last with `FB_ID` known (the empty list when there is none). -/
theorem exactSuppression_iff (libs : Libs) (t : Tunables) (hskip : t.skipsame ≠ 0)
    (hinterval : t.interval = 0) (es : List Event)
    (hprops : ∀ req testOnly env, .commit req testOnly env ∈ es → env.props = t)
    (hatt : (after (Shim.step libs) Shim.init es).attached = false) :
    ExactSuppression libs es ↔
      ∀ pre req env post, es = pre ++ .commit req false env :: post → t.enable ≠ 0 →
        (after (Shim.step libs) Shim.init pre).fbidProp ≠ 0 →
        weight (after (Shim.step libs) Shim.init pre).pend ≡
          weight ((lastFound (Shim.step libs) (knownList libs) Shim.init pre).getD [])
            [MOD 2 ^ 32] →
        lastFound (Shim.step libs) (injectedList libs) Shim.init pre
          = some (after (Shim.step libs) Shim.init pre).pend := by
  have hes := along_unmapped hprops hatt
  have hsig : ∀ pre e post, es = pre ++ e :: post →
      (after (Shim.step libs) Shim.init pre).lastFbSig
        = fbSig ((lastFound (Shim.step libs) (knownList libs) Shim.init pre).getD []) := by
    intro pre e post hsplit
    rw [hsplit] at hes
    exact after_lastFbSig hskip hinterval (along_append.mp hes).1
  constructor
  · intro hexact pre req env post hsplit henable hknown hweight
    refine hexact pre _ post hsplit ((suppressed_iff hskip (along_iff.mp hes pre _ post hsplit)).mpr
      ⟨rfl, henable, hknown, ?_⟩)
    rw [hsig pre _ post hsplit]
    exact (fbSig_eq_iff _ _).mpr hweight
  · intro hapart pre e post hsplit hsuppressed
    cases e with
    | addProperty => exact hsuppressed.elim
    | settle => exact hsuppressed.elim
    | commit req testOnly env =>
      obtain ⟨rfl, henable, hknown, hsame⟩ :=
        (suppressed_iff hskip (along_iff.mp hes pre _ post hsplit)).mp hsuppressed
      rw [hsig pre _ post hsplit] at hsame
      exact hapart pre req env post hsplit henable hknown ((fbSig_eq_iff _ _).mp hsame)

/-! ### Two planes -/

/-- A driver with two planes that have only `FB_ID`. -/
def fbPlanes : Driver := fun obj =>
  if obj = 40 ∨ obj = 41 then some [some ⟨17, "FB_ID"⟩] else none

/-- A request that shows two framebuffers on the planes. -/
def flip (req : ℕ) (fb fb' : UInt64) : List Event :=
  [.addProperty req 40 17 fb, .addProperty req 41 17 fb',
    .commit req false { Env.bare Tunables.init 1000 with driver := fbPlanes }]

/-- The last request shows what the one before it has shown, and is suppressed. -/
def sameAgain : List Event := flip 1 300 400 ++ flip 2 300 400 ++ flip 3 300 400

theorem exactSuppression_same : ExactSuppression Libs.all sameAgain := by
  refine (exactSuppression_iff Libs.all Tunables.init (by decide) rfl _ ?_ (by decide)).mpr ?_
  · intro req testOnly env hmem
    simp only [sameAgain, flip, List.cons_append, List.nil_append, List.mem_cons, reduceCtorEq,
      Event.commit.injEq, List.not_mem_nil, or_false, false_or] at hmem
    rcases hmem with h | h | h
    · rw [h.2.2]
      rfl
    · rw [h.2.2]
      rfl
    · rw [h.2.2]
      rfl
  · intro pre req env post hes _ hknown hweight
    have hpre : sameAgain.take pre.length = pre := by rw [hes, List.take_left]
    have hcommit : (sameAgain[pre.length]?).map Event.commits = some true := by
      rw [hes, List.getElem?_append_right le_rfl, Nat.sub_self]
      rfl
    have hlen : pre.length < 9 := by
      have htotal := congrArg List.length hes
      rw [List.length_append, List.length_cons] at htotal
      change 9 = _ at htotal
      omega
    have hpos : ∀ n < 9, (sameAgain[n]?).map Event.commits = some true →
        n = 2 ∨ n = 5 ∨ n = 8 := by decide
    rcases hpos pre.length hlen hcommit with h | h | h
    · rw [← hpre, h] at hknown
      exact absurd (by decide) hknown
    · rw [← hpre, h] at hweight
      exact absurd hweight (by decide +kernel)
    · rw [← hpre, h]
      decide +kernel

/-- One framebuffer id moves by 1 and the other by -31. -/
theorem not_exactSuppression_moved :
    ¬ ExactSuppression Libs.all (flip 1 300 400 ++ flip 2 300 400 ++ flip 3 301 369) := by
  intro h
  have hlast := h (flip 1 300 400 ++ flip 2 300 400 ++ (flip 3 301 369).take 2) _ [] rfl
    ⟨by decide, by decide, by decide⟩
  revert hlast
  decide

end PalmaEos
