import PalmaEos.Lib.Runs
import PalmaEos.Shim

/-!
# Damage that is lost

SurfaceFlinger publishes a region for every frame, and the shim samples the page at its own pace.
A publication replaces the one before it. What has been published and not been refreshed since is
*stale*; the page is the only place where it can still be found.

Both loops together are one machine, `Display`, whose trace holds the publications that completed
and what the shim sent. A commit happens when its read of the page is accepted: `ReadsPage` says
that an attempt that is not given up has seen the latest publication.

## Main results

* `noDamageLost` — nothing is lost in a run in which every publication asks for all that is stale
-/

namespace PalmaEos

/-! ### SurfaceFlinger and the shim -/

structure Display where
  shim : Shim
  page : Page

inductive DisplayEvent
  /-- `publishEpdcDamage` has completed. -/
  | publish (damage : Region) (forceFull : Bool)
  | call (e : Event)

/-- What the trace of a run records. -/
inductive Happening
  | published (damage : Region)
  | sent (o : Output)

def Display.step (libs : Libs) (d : Display) : DisplayEvent → Display × Option Happening
  | .publish damage forceFull =>
    ({ d with page := publishEpdcDamage d.page damage forceFull }, some (.published damage))
  | .call e => ({ d with shim := (d.shim.step libs e).1 }, (d.shim.step libs e).2.map .sent)

/-- Pixel `p` of the panel is damaged. -/
def Happening.Damages : Happening → ℤ × ℤ → Prop
  | .published damage, p => damage.Has p.1 p.2 ∧ panel.Has p.1 p.2
  | .sent _, _ => False

/-- Pixel `p` lies in a rectangle of an injection, and the injection reaches a plane. -/
def Happening.Refreshes : Happening → ℤ × ℤ → Prop
  | .sent (.injected _ i), p =>
    i.adds ≠ [] ∧ ∃ k : Fin 8, k.val < i.n ∧ (i.parms k).ltrb.Has p.1 p.2
  | .sent (.settled _), _ => False
  | .published _, _ => False

/-- Pixel `p` has been damaged and no injection since has refreshed it. -/
abbrev Stale : List Happening → ℤ × ℤ → Prop := Owed Happening.Damages Happening.Refreshes

/-- After every commit of the run that injects, no pixel is stale. -/
def NoDamageLost (libs : Libs) (d : Display) (es : List DisplayEvent) : Prop :=
  ∀ pre e post req i, es = pre ++ e :: post →
    ((after (Display.step libs) d pre).step libs e).2 = some (.sent (.injected req i)) →
      ∀ p, ¬ Stale (outputs (Display.step libs) d (pre ++ [e])) p

/-! ### The plane -/

/-- Among the recorded objects is a plane that has both EPDC properties, as far as the shim looks
and remembers. -/
def hasPlane (libs : Libs) (driver : Driver) : List (UInt32 × UInt32) → Shim → Bool
  | [], _ => false
  | (obj, _) :: pend, s =>
    ((lookup libs driver obj s).2.any fun c => c.parmsProp ≠ 0 ∧ c.cntProp ≠ 0) ||
      hasPlane libs driver pend (lookup libs driver obj s).1

section Plane

variable {libs : Libs} {driver : Driver}

theorem addParms_ne_nil {nRect : ℤ} {pend : List (UInt32 × UInt32)} {s : Shim}
    (h : hasPlane libs driver pend s) : (addParms libs driver nRect pend s).2 ≠ [] := by
  induction pend generalizing s with
  | nil => exact absurd h (by simp [hasPlane])
  | cons p pend ih =>
    rw [hasPlane, Bool.or_eq_true] at h
    rw [addParms]
    rcases hl : lookup libs driver p.1 s with ⟨s', _ | c⟩
    · rw [hl] at h
      exact ih (h.resolve_left (by simp))
    · rw [hl] at h
      dsimp only
      split_ifs with hno
      · refine ih (h.resolve_left fun hc => ?_)
        simp only [Option.any_some, decide_eq_true_eq] at hc
        exact hno.elim hc.1 hc.2
      · exact List.cons_ne_nil _ _

theorem lookup_congr (libs : Libs) (driver : Driver) {s s' : Shim} (hcache : s.cache = s'.cache)
    (hfbid : s.fbidProp = s'.fbidProp) (obj : UInt32) :
    (lookup libs driver obj s).2 = (lookup libs driver obj s').2 ∧
      (lookup libs driver obj s).1.cache = (lookup libs driver obj s').1.cache ∧
      (lookup libs driver obj s).1.fbidProp = (lookup libs driver obj s').1.fbidProp := by
  simp only [lookup, hcache, hfbid]
  split
  · exact ⟨rfl, hcache, hfbid⟩
  · split_ifs
    · exact ⟨rfl, hcache, hfbid⟩
    · exact ⟨rfl, hcache, hfbid⟩
    · split
      · exact ⟨rfl, rfl, rfl⟩
      · exact ⟨rfl, rfl, rfl⟩

/-- The plane is found through the property cache alone. -/
theorem hasPlane_congr {pend : List (UInt32 × UInt32)} {s s' : Shim} (hcache : s.cache = s'.cache)
    (hfbid : s.fbidProp = s'.fbidProp) :
    hasPlane libs driver pend s = hasPlane libs driver pend s' := by
  induction pend generalizing s s' with
  | nil => rfl
  | cons p pend ih =>
    obtain ⟨hentry, hcache', hfbid'⟩ := lookup_congr libs driver hcache hfbid p.1
    rw [hasPlane, hasPlane, hentry, ih hcache' hfbid']

end Plane

/-! ### The invariant -/

section Loss

variable {libs : Libs} {trace : List Happening} {d : Display} {e : DisplayEvent}

/-- What the surroundings promise: commits find the shim enabled and unpaced, and a real commit
reads the page that is there and has a plane with both properties in its request. -/
def Assumed (libs : Libs) (_ : List Happening) (d : Display) : DisplayEvent → Prop
  | .call (.commit _ testOnly env) => env.props.enable ≠ 0 ∧ env.props.interval = 0 ∧
      (testOnly = false →
        ReadsPage d.page env.views ∧ hasPlane libs env.driver d.shim.pend d.shim = true)
  | _ => True

/-- A publication asks to refresh every pixel that is stale. -/
def AsksStale (trace : List Happening) (_ : Display) : DisplayEvent → Prop
  | .publish damage forceFull => ∀ p, Stale trace p → damage.Asks forceFull p.1 p.2
  | .call _ => True

/-- The shim is attached, enabled and unpaced, and the page covers everything that is stale. -/
structure DamageInv (trace : List Happening) (d : Display) : Prop where
  attached : d.shim.attached = true
  enabled : d.shim.tun.enable ≠ 0
  unpaced : d.shim.tun.interval = 0
  covered : ∀ p, Stale trace p → d.page.Covers p.1 p.2 ∧ panel.Has p.1 p.2

theorem refreshTunables_keeps {props : Tunables} {s : Shim}
    (hprops : props.enable ≠ 0 ∧ props.interval = 0) (hs : s.tun.enable ≠ 0 ∧ s.tun.interval = 0) :
    (refreshTunables props s).tun.enable ≠ 0 ∧ (refreshTunables props s).tun.interval = 0 := by
  rw [refreshTunables]
  split_ifs
  · exact hs
  · exact hprops

/-- On an attached shim, preparing a commit is refreshing the tunables. -/
theorem prepare_of_attached (libs : Libs) (env : Env) {s : Shim} (h : s.attached = true) :
    prepare libs env s = refreshTunables env.props s := by
  obtain ⟨c, t, href⟩ := refreshTunables_frame s env.props
  rw [prepare, attachDamage, href, if_pos h]

theorem inject_adds (env : Env) (snap : Snapshot) (dt : ℤ) (s : Shim)
    (h : hasPlane libs env.driver s.pend s = true) : (inject libs env snap dt s).2.adds ≠ [] := by
  refine addParms_ne_nil ?_
  rw [← h]
  refine hasPlane_congr ?_ ?_
  · rw [startSettleThread]
    split_ifs <;> rfl
  · rw [startSettleThread]
    split_ifs <;> rfl

/-- An injection refreshes every pixel of the panel that the page it has read covers. -/
theorem inject_refreshes {page : Page} {env : Env} {s : Shim} (hatt : s.attached = true)
    (hreads : ReadsPage page env.views) (hplane : hasPlane libs env.driver s.pend s = true) (dt : ℤ)
    {p : ℤ × ℤ} (hcov : page.Covers p.1 p.2) (hpanel : panel.Has p.1 p.2) (req : ℕ) :
    (Happening.sent (.injected req
      (inject libs env (snapshot env s) dt (observed env s)).2)).Refreshes p := by
  refine ⟨inject_adds env _ _ _ ?_, ?_⟩
  · rw [← hplane]
    exact hasPlane_congr rfl rfl
  · have hsnap : snapshot env s = (readDamage true env.views s.lastDmgSeq).1 := by
      rw [snapshot, hatt]
    rw [hsnap]
    exact submit_covers _ _ _ _ _ _ hreads hcov hpanel

/-- A call that the trace does not see keeps what is covered. -/
theorem DamageInv.of_shim {s : Shim} (h : DamageInv trace d) (hatt : s.attached = true)
    (htun : s.tun.enable ≠ 0 ∧ s.tun.interval = 0) : DamageInv trace { d with shim := s } :=
  ⟨hatt, htun.1, htun.2, h.covered⟩

/-- **A commit injects all that is stale, or nothing.** -/
theorem DamageInv.commit {req : ℕ} {testOnly : Bool} {env : Env} (h : DamageInv trace d)
    (hP : Assumed libs trace d (.call (.commit req testOnly env))) :
    (d.step libs (.call (.commit req testOnly env))).1.shim.attached = true ∧
      ((d.step libs (.call (.commit req testOnly env))).1.shim.tun.enable ≠ 0 ∧
        (d.step libs (.call (.commit req testOnly env))).1.shim.tun.interval = 0) ∧
      ((d.step libs (.call (.commit req testOnly env))).2 = none ∨
        ∃ o, (d.step libs (.call (.commit req testOnly env))).2 = some o ∧
          ∀ p, ¬ Stale (trace ++ [o]) p) := by
  obtain ⟨henable, hinterval, hreal⟩ := hP
  obtain ⟨c, t, href⟩ := refreshTunables_frame d.shim env.props
  have htun := refreshTunables_keeps ⟨henable, hinterval⟩ ⟨h.enabled, h.unpaced⟩
  have hprep := prepare_of_attached libs env h.attached
  have hatt : (prepare libs env d.shim).attached = true := by
    rw [hprep, href]
    exact h.attached
  simp only [Display.step, Shim.step]
  rcases drmModeAtomicCommit_cases libs env testOnly d.shim with
    ⟨-, heq⟩ | ⟨-, -, heq⟩ | ⟨hdrives, -, -, heq⟩
  · rw [heq]
    exact ⟨hprep ▸ hatt, htun, Or.inl rfl⟩
  · rw [heq]
    exact ⟨hatt, hprep ▸ htun, Or.inl rfl⟩
  · obtain ⟨hreads, hplane⟩ := hreal hdrives.1
    have hplane' : hasPlane libs env.driver (prepare libs env d.shim).pend
        (prepare libs env d.shim) = true := by
      rw [hprep, href]
      rw [← hplane]
      exact hasPlane_congr rfl rfl
    obtain ⟨cache, fbid, started, running, hframe⟩ :=
      inject_frame libs env (observed env (prepare libs env d.shim))
        (snapshot env (prepare libs env d.shim)) (sinceInject libs env (prepare libs env d.shim))
    rw [heq]
    dsimp only
    rw [hframe]
    refine ⟨hatt, hprep ▸ htun, Or.inr ⟨_, rfl, fun p hstale => ?_⟩⟩
    rcases owed_concat.mp hstale with hno | ⟨hold, hkept⟩
    · exact hno
    · obtain ⟨hcov, hpanel⟩ := h.covered p hold
      exact hkept (inject_refreshes hatt hreads hplane' _ hcov hpanel req)

/-- Every step keeps the invariant. -/
theorem DamageInv.step (h : DamageInv trace d) (hP : Assumed libs trace d e ∧ AsksStale trace d e) :
    DamageInv (trace ++ (d.step libs e).2.toList) (d.step libs e).1 := by
  cases e with
  | publish damage forceFull =>
    refine ⟨h.attached, h.enabled, h.unpaced, ?_⟩
    intro p hstale
    rcases owed_concat.mp hstale with hnew | ⟨hold, -⟩
    · exact ⟨covers_publish _ _ hnew.1, hnew.2⟩
    · exact ⟨(covers_publish_iff _).mpr (hP.2 p hold), (h.covered p hold).2⟩
  | call e =>
    cases e with
    | addProperty req obj prop value =>
      rw [show (d.step libs (.call (.addProperty req obj prop value))).2.toList = [] from rfl,
        List.append_nil]
      exact h.of_shim h.attached ⟨h.enabled, h.unpaced⟩
    | settle clock opens =>
      simp only [Display.step, Shim.step]
      rcases settleTick_cases libs clock opens d.shim with ⟨b, -, heq⟩ | ⟨-, heq⟩
      · rw [heq, show (Option.map Happening.sent (Option.map Output.settled none)).toList = [] from
          rfl, List.append_nil]
        exact h.of_shim h.attached ⟨h.enabled, h.unpaced⟩
      · rw [heq]
        refine ⟨h.attached, h.enabled, h.unpaced, ?_⟩
        intro p hstale
        rcases owed_concat.mp hstale with hno | ⟨hold, -⟩
        · exact hno.elim
        · exact h.covered p hold
    | commit req testOnly env =>
      obtain ⟨hatt, htun, hout⟩ := h.commit hP.1
      refine ⟨hatt, htun.1, htun.2, ?_⟩
      intro p hstale
      rcases hout with hnone | ⟨o, hsome, hfresh⟩
      · rw [hnone, Option.toList_none, List.append_nil] at hstale
        exact h.covered p hstale
      · rw [hsome] at hstale
        exact absurd hstale (hfresh p)

end Loss

/-- **When no damage is lost.** Start with the shim attached, enabled and unpaced, and let
publications, commits and settle rounds follow in any order, with a plane in every real commit's
request. If every publication asks to refresh all that is stale when it completes, nothing is
stale after any commit that injects. -/
theorem noDamageLost (libs : Libs) (d : Display) (es : List DisplayEvent)
    (hattached : d.shim.attached = true) (henabled : d.shim.tun.enable ≠ 0)
    (hunpaced : d.shim.tun.interval = 0)
    (hes : Along (Display.step libs) (Assumed libs) [] d es)
    (hasks : Along (Display.step libs) AsksStale [] d es) : NoDamageLost libs d es := by
  have hinit : DamageInv [] d := ⟨hattached, henabled, hunpaced, fun _ h => absurd h not_owed_nil⟩
  rintro pre e post req i rfl hinjects p
  have hall := along_and hes hasks
  rw [along_append] at hall
  have hpre := run_inv (fun _ _ _ h hP => DamageInv.step h hP) hinit hall.1
  rw [outputs_append, outputs_singleton]
  cases e with
  | publish damage forceFull => exact absurd hinjects (by simp [Display.step])
  | call e =>
    cases e with
    | addProperty => exact absurd hinjects (by simp [Display.step, Shim.step])
    | settle => exact absurd hinjects (by simp [Display.step, Shim.step])
    | commit req' testOnly env =>
      obtain ⟨-, -, hout⟩ := hpre.commit hall.2.1.1
      rcases hout with hnone | ⟨o, hsome, hfresh⟩
      · exact absurd hinjects (by simp [hnone])
      · rw [hsome]
        exact hfresh p

/-! ### Two publications before a commit -/

/-- One square of ten by ten pixels, on the diagonal. -/
def square (c : ℤ) : Region :=
  ⟨[⟨c, c, c + 10, c + 10⟩], ⟨c, c, c + 10, c + 10⟩,
    fun _ hr => List.mem_singleton.mp hr ▸ ⟨Int.lt_add_of_pos_right c (by decide),
      Int.lt_add_of_pos_right c (by decide)⟩, by simp⟩

/-- The page when SurfaceFlinger has made it. -/
def freshPage : Page := ⟨2, 0, 1, fun _ => ⟨0, 0, 0, 0⟩⟩

/-- A real commit that reads the page at rest, with object 7 as the EPDC plane. -/
def restingCommit (page : Page) (clock : ℤ) : Event :=
  .commit 0 false { Env.bare Tunables.init clock with
    file := .valid
    views := fun _ => ⟨page.seq, page.count, page.full, page.rect, page.seq⟩
    driver := fun obj =>
      if obj = 7 then some [some ⟨20, "EPDC_UPDATE_PARMS_ADDR"⟩, some ⟨21, "EPDC_UPDATE_CNT"⟩]
      else none }

/-- The first commit has attached the damage map. -/
def attachedDisplay : Display :=
  ⟨(Shim.init.step Libs.all (restingCommit freshPage 1000)).1, freshPage⟩

/-- The request that the next commit carries. -/
def planeRequest : DisplayEvent := .call (.addProperty 0 7 1 0)

theorem noDamageLost_square :
    ¬ Stale (outputs (Display.step Libs.all) attachedDisplay [.publish (square 0) false,
      planeRequest, .call (restingCommit (publishEpdcDamage freshPage (square 0) false) 1001)])
      (3, 4) := by
  refine noDamageLost Libs.all attachedDisplay
    ([.publish (square 0) false, planeRequest] ++
      [.call (restingCommit (publishEpdcDamage freshPage (square 0) false) 1001)])
    rfl (by decide) rfl ?_ ?_ [.publish (square 0) false, planeRequest] _ [] 0 _ rfl rfl (3, 4)
  · exact ⟨trivial, trivial,
      ⟨by decide, rfl, fun _ => ⟨fun _ _ => ⟨rfl, rfl, rfl, rfl⟩, by decide⟩⟩, trivial⟩
  · exact ⟨fun _ h => absurd h not_owed_nil, trivial, trivial, trivial⟩

/-- The second publication replaces the first, and the commit injects the second only. -/
theorem not_noDamageLost_two_squares :
    (attachedDisplay.shim.attached = true ∧ attachedDisplay.shim.tun.enable ≠ 0 ∧
        attachedDisplay.shim.tun.interval = 0) ∧
      Along (Display.step Libs.all) (Assumed Libs.all) [] attachedDisplay
        [.publish (square 0) false, .publish (square 20) false, planeRequest,
          .call (restingCommit (publishEpdcDamage (publishEpdcDamage freshPage (square 0) false)
            (square 20) false) 1001)] ∧
      ¬ NoDamageLost Libs.all attachedDisplay
        [.publish (square 0) false, .publish (square 20) false, planeRequest,
          .call (restingCommit (publishEpdcDamage (publishEpdcDamage freshPage (square 0) false)
            (square 20) false) 1001)] := by
  refine ⟨⟨rfl, by decide, rfl⟩, ?_, ?_⟩
  · exact ⟨trivial, trivial, trivial,
      ⟨by decide, rfl, fun _ => ⟨fun _ _ => ⟨rfl, rfl, rfl, rfl⟩, by decide⟩⟩, trivial⟩
  · intro h
    refine h [.publish (square 0) false, .publish (square 20) false, planeRequest] _ [] 0 _ rfl rfl
      (3, 4) ⟨[], .published (square 0), [.published (square 20), .sent (.injected 0 _)], rfl,
        ⟨⟨⟨0, 0, 10, 10⟩, by decide, by decide⟩, by decide⟩, ?_⟩
    intro o ho
    rcases List.mem_cons.mp ho with rfl | ho
    · exact id
    · rw [List.mem_singleton.mp ho]
      rintro ⟨-, hcov⟩
      revert hcov
      decide

end PalmaEos
