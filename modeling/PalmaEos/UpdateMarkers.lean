import Mathlib.Data.List.Pairwise
import PalmaEos.Lib.Runs
import PalmaEos.EpdcPlanes

/-!
# Update markers

The EPD driver tracks its updates by their markers and needs them to be unique. The shim has two
counters: `g_parms[0].update_marker`, which every injection advances, and the `marker` of
`settle_now`. Both start at 1, so the markers of a run are unique exactly when one of the two is
never used. A settle pass needs an injection before it; so that is when no settle pass is sent.

## Main results

* `step_markers` — what one step does to the two counters
* `MarkerInv.step` — the counters count the submissions
* `uniqueMarkers_iff` — when the markers of a run are unique
-/

namespace PalmaEos

/-- The update entries that a submission hands to the driver. -/
def Output.entries : Output → List Upd
  | .injected _ i => ((List.finRange 8).filter fun k => (k.val : ℤ) < i.n).map i.parms
  | .settled u => [u]

/-- The marker of a submission. -/
def Output.marker : Output → ℤ
  | .injected _ i => commonMarker i.parms
  | .settled u => u.updateMarker

/-- The submission is an injection of a commit. -/
def Output.IsInjected : Output → Prop
  | .injected _ _ => True
  | .settled _ => False

instance (o : Output) : Decidable o.IsInjected :=
  match o with
  | .injected _ _ => isTrue trivial
  | .settled _ => isFalse id

/-- Markers are positive, and those of two submissions are different. -/
def UniqueMarkers (outs : List Output) : Prop :=
  (∀ o ∈ outs, ∀ u ∈ o.entries, 0 < u.updateMarker) ∧
    outs.Pairwise fun o o' => ∀ u ∈ o.entries, ∀ u' ∈ o'.entries, u.updateMarker ≠ u'.updateMarker

instance (outs : List Output) : Decidable (UniqueMarkers outs) :=
  inferInstanceAs (Decidable (_ ∧ _))

/-- All entries of a submission carry its marker, and there are some. -/
structure Marked (o : Output) : Prop where
  all : ∀ u ∈ o.entries, u.updateMarker = o.marker
  some : ∃ u, u ∈ o.entries

/-! ### One step -/

section Step

variable (libs : Libs) (s : Shim)

/-- The entries of an injection carry the advanced marker. -/
theorem nextParms_marker {s : Shim} (snap : Snapshot) (dt : ℤ) {i : Fin 8}
    (hi : i.val < (nextParms snap dt s).n) :
    ((nextParms snap dt s).parms i).updateMarker = wrap32 ((s.parms 0).updateMarker + 1) := by
  rw [nextParms, submit, (ltrb_initParms _ _ _ _ _ _ _ hi).2, advanceMarker, Function.update_self]

theorem marked_inject (env : Env) (snap : Snapshot) (dt : ℤ) (req : ℕ) :
    Marked (.injected req (inject libs env snap dt s).2) ∧
      Output.marker (.injected req (inject libs env snap dt s).2)
        = wrap32 ((s.parms 0).updateMarker + 1) := by
  have hn : 1 ≤ (nextParms snap dt s).n ∧ (nextParms snap dt s).n ≤ 8 :=
    initParms_n _ _ _ _ _ _ _
  have hzero : ((0 : Fin 8).val : ℤ) < (nextParms snap dt s).n := by
    simp only [Fin.val_zero]
    omega
  have hmem : ∀ u, u ∈ Output.entries (.injected req (inject libs env snap dt s).2) ↔
      ∃ i : Fin 8, i.val < (nextParms snap dt s).n ∧ (nextParms snap dt s).parms i = u := by
    intro u
    simp only [Output.entries, List.mem_map, List.mem_filter, List.mem_finRange, true_and,
      decide_eq_true_iff]
    exact Iff.rfl
  have hmarker := nextParms_marker snap dt hzero
  refine ⟨⟨fun u hu => ?_, _, (hmem _).mpr ⟨0, hzero, rfl⟩⟩, hmarker⟩
  obtain ⟨i, hi, rfl⟩ := (hmem u).mp hu
  exact (nextParms_marker snap dt hi).trans hmarker.symm

/-- **One step.** A step that submits nothing keeps both counters; an injection advances the one
and takes it for its marker; a settle pass, before which something has been injected, advances
the other. -/
theorem step_markers (e : Event) :
    ((s.step libs e).2 = none ∧
        ((s.step libs e).1.parms 0).updateMarker = (s.parms 0).updateMarker ∧
        (s.step libs e).1.settleMarker = s.settleMarker ∧
        ((s.step libs e).1.settlePending = true → s.settlePending = true)) ∨
      (∃ o, (s.step libs e).2 = some o ∧ o.IsInjected ∧ Marked o ∧
        o.marker = wrap32 ((s.parms 0).updateMarker + 1) ∧
        ((s.step libs e).1.parms 0).updateMarker = o.marker ∧
        (s.step libs e).1.settleMarker = s.settleMarker) ∨
      (∃ o, (s.step libs e).2 = some o ∧ ¬ o.IsInjected ∧ Marked o ∧
        o.marker = nextSettleMarker s.settleMarker ∧
        ((s.step libs e).1.parms 0).updateMarker = (s.parms 0).updateMarker ∧
        (s.step libs e).1.settleMarker = o.marker ∧ s.settlePending = true) := by
  cases e with
  | addProperty req obj prop value => exact Or.inl ⟨rfl, rfl, rfl, id⟩
  | commit req testOnly env =>
    simp only [Shim.step]
    rcases drmModeAtomicCommit_cases libs env testOnly s with
      ⟨-, heq⟩ | ⟨-, -, heq⟩ | ⟨-, -, -, heq⟩
    · left
      obtain ⟨c, t, href⟩ := refreshTunables_frame s env.props
      rw [heq, href]
      exact ⟨rfl, rfl, rfl, id⟩
    · left
      obtain ⟨c, t, tried, fds, maps, att, hprep⟩ := prepare_frame libs env s
      rw [heq, hprep]
      exact ⟨rfl, rfl, rfl, id⟩
    · right
      left
      obtain ⟨c, t, tried, fds, maps, att, hprep⟩ := prepare_frame libs env s
      generalize hp : prepare libs env s = p at heq hprep
      obtain ⟨hmarked, hmarker⟩ := marked_inject libs (observed env p) env
        (snapshot env p) (sinceInject libs env p) req
      obtain ⟨cache, fbid, started, running, hframe⟩ :=
        inject_frame libs env (observed env p) (snapshot env p) (sinceInject libs env p)
      rw [heq]
      refine ⟨_, rfl, trivial, hmarked, ?_, ?_, ?_⟩
      · rw [hmarker, hprep]
        rfl
      · dsimp only
        rw [hframe]
        rfl
      · dsimp only
        rw [hframe, hprep]
        rfl
  | settle clock opens =>
    simp only [Shim.step]
    rcases settleTick_cases libs clock opens s with ⟨b, hb, heq⟩ | ⟨hpending, heq⟩
    · left
      rw [heq]
      exact ⟨rfl, rfl, rfl, hb⟩
    · right
      right
      rw [heq]
      have hmarked : Marked (.settled (settleUpd s.tun (nextSettleMarker s.settleMarker))) :=
        ⟨fun u hu => by rw [List.mem_singleton.mp hu]; rfl, _, List.mem_singleton.mpr rfl⟩
      exact ⟨_, rfl, id, hmarked, rfl, rfl, rfl, hpending⟩

end Step

/-! ### Whole runs -/

/-- How many submissions of a run are injections. -/
def injections (outs : List Output) : ℕ := outs.countP fun o => o.IsInjected

/-- How many are settle passes. -/
def settles (outs : List Output) : ℕ := outs.countP fun o => ¬ o.IsInjected

/-- The two counters count the submissions of either kind, as long as there are few enough for a
32-bit number. -/
structure MarkerInv (outs : List Output) (s : Shim) : Prop where
  injected : (s.parms 0).updateMarker = injections outs
  settled : s.settleMarker = settles outs
  /-- A settle pass is pending or was sent only after an injection. -/
  pending : s.settlePending = true ∨ 0 < settles outs → 0 < injections outs
  marked : ∀ o ∈ outs, Marked o
  /-- Injections are numbered from 1 in order. -/
  bounds : ∀ o ∈ outs, 0 < o.marker ∧ (o.IsInjected → o.marker ≤ injections outs)
  ordered : outs.Pairwise fun o o' => o.IsInjected → o'.IsInjected → o.marker < o'.marker
  first : 0 < injections outs → ∃ o ∈ outs, o.IsInjected ∧ o.marker = 1
  firstSettle : 0 < settles outs → ∃ o ∈ outs, ¬ o.IsInjected ∧ o.marker = 1

theorem markerInv_init : MarkerInv [] Shim.init where
  injected := rfl
  settled := rfl
  pending := by simp [Shim.init, settles]
  marked := by simp
  bounds := by simp
  ordered := List.Pairwise.nil
  first := by simp [injections]
  firstSettle := by simp [settles]

theorem length_eq (outs : List Output) : outs.length = injections outs + settles outs := by
  rw [injections, settles, List.length_eq_countP_add_countP fun o => decide (o.IsInjected)]
  simp

theorem wrap32_succ {n : ℕ} (h : n + 1 < 2 ^ 31) : wrap32 (n + 1) = n + 1 := by
  rw [wrap32, Int.bmod_eq_of_le] <;> omega

section Preservation

variable {outs : List Output} {s s' : Shim} {o : Output}

theorem injections_snoc :
    injections (outs ++ [o]) = injections outs + if o.IsInjected then 1 else 0 := by
  rw [injections, List.countP_append, List.countP_singleton]
  simp [injections]

theorem settles_snoc : settles (outs ++ [o]) = settles outs + if o.IsInjected then 0 else 1 := by
  rw [settles, List.countP_append, List.countP_singleton]
  by_cases h : o.IsInjected <;> simp [settles, h]

theorem MarkerInv.quiet (h : MarkerInv outs s)
    (hparms : (s'.parms 0).updateMarker = (s.parms 0).updateMarker)
    (hsettle : s'.settleMarker = s.settleMarker)
    (hpending : s'.settlePending = true → s.settlePending = true) : MarkerInv outs s' :=
  { h with
    injected := hparms.trans h.injected
    settled := hsettle.trans h.settled
    pending := fun hp => h.pending (hp.imp_left hpending) }

/-- What both kinds of submission add to the list. -/
theorem MarkerInv.ordered_snoc (h : MarkerInv outs s)
    (ho : o.IsInjected → o.marker = injections outs + 1) :
    (outs ++ [o]).Pairwise fun o o' => o.IsInjected → o'.IsInjected → o.marker < o'.marker := by
  refine List.pairwise_append.mpr
    ⟨h.ordered, List.pairwise_singleton _ _, fun a ha b hb hai hbi => ?_⟩
  rw [List.mem_singleton.mp hb] at hbi ⊢
  have := (h.bounds a ha).2 hai
  have := ho hbi
  omega

theorem MarkerInv.inject (h : MarkerInv outs s) (ho : o.IsInjected) (hmarked : Marked o)
    (hlen : injections outs + 1 < 2 ^ 31)
    (hmarker : o.marker = wrap32 ((s.parms 0).updateMarker + 1))
    (hparms : (s'.parms 0).updateMarker = o.marker) (hsettle : s'.settleMarker = s.settleMarker) :
    MarkerInv (outs ++ [o]) s' := by
  have hnext : o.marker = injections outs + 1 := by rw [hmarker, h.injected, wrap32_succ hlen]
  have hinj : injections (outs ++ [o]) = injections outs + 1 := by rw [injections_snoc, if_pos ho]
  have hset : settles (outs ++ [o]) = settles outs := by
    rw [settles_snoc, if_pos ho, Nat.add_zero]
  refine ⟨?_, ?_, ?_, ?_, ?_, h.ordered_snoc fun _ => hnext, ?_, ?_⟩
  · rw [hparms, hnext, hinj]
    push_cast
    rfl
  · rw [hsettle, h.settled, hset]
  · intro _
    omega
  · exact List.forall_mem_append.mpr ⟨h.marked, fun x hx => List.mem_singleton.mp hx ▸ hmarked⟩
  · rw [List.forall_mem_append]
    constructor
    · intro x hx
      obtain ⟨hpos, hle⟩ := h.bounds x hx
      refine ⟨hpos, ?_⟩
      intro hxi
      have := hle hxi
      omega
    · intro x hx
      rw [List.mem_singleton.mp hx]
      omega
  · intro _
    rcases Nat.eq_zero_or_pos (injections outs) with hzero | hpos
    · exact ⟨o, List.mem_append_right _ (List.mem_singleton.mpr rfl), ho, by omega⟩
    · obtain ⟨x, hx, hxi, hx1⟩ := h.first hpos
      exact ⟨x, List.mem_append_left _ hx, hxi, hx1⟩
  · intro hpos
    obtain ⟨x, hx, hxi, hx1⟩ := h.firstSettle (by omega)
    exact ⟨x, List.mem_append_left _ hx, hxi, hx1⟩

theorem MarkerInv.settle (h : MarkerInv outs s) (ho : ¬ o.IsInjected) (hmarked : Marked o)
    (hlen : settles outs + 1 < 2 ^ 31) (hmarker : o.marker = nextSettleMarker s.settleMarker)
    (hparms : (s'.parms 0).updateMarker = (s.parms 0).updateMarker)
    (hsettle : s'.settleMarker = o.marker) (hpending : s.settlePending = true) :
    MarkerInv (outs ++ [o]) s' := by
  have hnext : o.marker = settles outs + 1 := by
    rw [hmarker, nextSettleMarker, h.settled, wrap32_succ hlen, if_neg (by omega)]
  have hinj : injections (outs ++ [o]) = injections outs := by
    rw [injections_snoc, if_neg ho, Nat.add_zero]
  have hset : settles (outs ++ [o]) = settles outs + 1 := by rw [settles_snoc, if_neg ho]
  have hpos := h.pending (Or.inl hpending)
  refine ⟨?_, ?_, ?_, ?_, ?_, h.ordered_snoc fun hi => absurd hi ho, ?_, ?_⟩
  · rw [hparms, h.injected, hinj]
  · rw [hsettle, hnext, hset]
    push_cast
    rfl
  · intro _
    omega
  · exact List.forall_mem_append.mpr ⟨h.marked, fun x hx => List.mem_singleton.mp hx ▸ hmarked⟩
  · rw [List.forall_mem_append]
    constructor
    · intro x hx
      rw [hinj]
      exact h.bounds x hx
    · intro x hx
      rw [List.mem_singleton.mp hx]
      exact ⟨by omega, fun hi => absurd hi ho⟩
  · intro _
    obtain ⟨x, hx, hxi, hx1⟩ := h.first hpos
    exact ⟨x, List.mem_append_left _ hx, hxi, hx1⟩
  · intro _
    rcases Nat.eq_zero_or_pos (settles outs) with hzero | hsome
    · exact ⟨o, List.mem_append_right _ (List.mem_singleton.mpr rfl), ho, by omega⟩
    · obtain ⟨x, hx, hxi, hx1⟩ := h.firstSettle hsome
      exact ⟨x, List.mem_append_left _ hx, hxi, hx1⟩

/-- **The counters count the submissions**, at every step of a run that stays below 2 ^ 31. -/
theorem MarkerInv.step (libs : Libs) {e : Event} (h : MarkerInv outs s)
    (hlen : (outs ++ (s.step libs e).2.toList).length < 2 ^ 31) :
    MarkerInv (outs ++ (s.step libs e).2.toList) (s.step libs e).1 := by
  have hsum := length_eq outs
  rcases step_markers libs s e with ⟨hout, hparms, hsettle, hpending⟩ |
    ⟨o, hout, ho, hmarked, hmarker, hparms, hsettle⟩ |
    ⟨o, hout, ho, hmarked, hmarker, hparms, hsettle, hpending⟩
  · rw [hout, Option.toList_none, List.append_nil]
    exact h.quiet hparms hsettle hpending
  · rw [hout, Option.toList_some] at hlen ⊢
    rw [List.length_append, List.length_singleton] at hlen
    exact h.inject ho hmarked (by omega) hmarker hparms hsettle
  · rw [hout, Option.toList_some] at hlen ⊢
    rw [List.length_append, List.length_singleton] at hlen
    exact h.settle ho hmarked (by omega) hmarker hparms hsettle hpending

theorem markerInv_run (libs : Libs) (es : List Event)
    (hlen : (outputs (Shim.step libs) Shim.init es).length < 2 ^ 31) :
    MarkerInv (outputs (Shim.step libs) Shim.init es) (after (Shim.step libs) Shim.init es) := by
  have hrun : MarkerInv ([] ++ outputs (Shim.step libs) Shim.init es)
      (after (Shim.step libs) Shim.init es) :=
    run_inv (fun _ _ _ h hP => h.step libs hP) markerInv_init
      (along_length_lt (by rwa [List.nil_append]))
  rwa [List.nil_append] at hrun

end Preservation

/-! ### When markers are unique -/

/-- A round of the settle thread sends a pass: the thread runs, the pass is switched on and
pending, the screen has been quiet for long enough, and `/dev/ebc` can be opened. -/
def SettleDue (libs : Libs) (s : Shim) : Event → Prop
  | .settle clock opens => s.settleRunning = true ∧ (s.tun.settlems ≠ 0 ∧ s.settlePending = true) ∧
      s.tun.settlems ≤ nowMs libs clock - s.lastInjectMs ∧
      (libs.open_ = true ∧ libs.ioctl = true) ∧ opens = true
  | _ => False

theorem not_settleDue_iff (libs : Libs) (s : Shim) (e : Event) :
    (∀ o ∈ (s.step libs e).2, o.IsInjected) ↔ ¬ SettleDue libs s e := by
  have hnone : ∀ o ∈ (none : Option Output), o.IsInjected := by simp
  cases e with
  | addProperty => exact iff_of_true hnone id
  | commit req testOnly env =>
    refine iff_of_true (fun o ho => ?_) id
    simp only [Shim.step, Option.mem_def, Option.map_eq_some_iff] at ho
    obtain ⟨i, -, rfl⟩ := ho
    trivial
  | settle clock opens =>
    simp only [Shim.step, settleTick, settleNow, SettleDue]
    split_ifs with hrun hpending hquiet hlibs hopens
    · refine iff_of_true hnone ?_
      intro h
      simp [h.1] at hrun
    · refine iff_of_true hnone ?_
      intro h
      simp [h.2.1] at hpending
    · exact iff_of_true hnone fun h => absurd h.2.2.1 (not_le.mpr hquiet)
    · refine iff_of_true hnone ?_
      intro h
      simp [h.2.2.2.1] at hlibs
    · refine iff_of_true hnone ?_
      intro h
      simp [h.2.2.2.2] at hopens
    · rw [not_or] at hpending
      simp only [Bool.not_eq_true', Bool.not_eq_false] at hrun hpending
      simp only [Bool.not_eq_true', Bool.not_eq_false, Bool.or_eq_true, not_or] at hlibs hopens
      exact iff_of_false (fun h => h _ rfl)
        (not_not.mpr ⟨hrun, hpending, not_lt.mp hquiet, hlibs, hopens⟩)

/-- **When update markers are unique.** In a run from the start with fewer than 2 ^ 31 submissions,
the markers are positive and different exactly when no round of the settle thread sends a pass. -/
theorem uniqueMarkers_iff (libs : Libs) (es : List Event)
    (hlen : (outputs (Shim.step libs) Shim.init es).length < 2 ^ 31) :
    UniqueMarkers (outputs (Shim.step libs) Shim.init es) ↔
      Along (Shim.step libs) (fun _ s e => ¬ SettleDue libs s e) [] Shim.init es := by
  have h := markerInv_run libs es hlen
  simp only [← not_settleDue_iff]
  rw [← forall_outputs_iff]
  generalize outputs (Shim.step libs) Shim.init es = outs at h
  constructor
  · intro hunique o ho
    by_contra hsettle
    have hsettles : 0 < settles outs := List.countP_pos_iff.mpr ⟨o, ho, by simpa using hsettle⟩
    obtain ⟨a, ha, hai, ha1⟩ := h.first (h.pending (Or.inr hsettles))
    obtain ⟨b, hb, hbi, hb1⟩ := h.firstSettle hsettles
    obtain ⟨u, hu⟩ := (h.marked a ha).some
    obtain ⟨v, hv⟩ := (h.marked b hb).some
    have hne : a ≠ b := fun hab => hbi (hab ▸ hai)
    have hsymm : Std.Symm fun o o' : Output =>
        ∀ u ∈ o.entries, ∀ u' ∈ o'.entries, u.updateMarker ≠ u'.updateMarker :=
      ⟨fun _ _ hxy u hu v hv => (hxy v hv u hu).symm⟩
    refine hunique.2.forall ha hb hne u hu v hv ?_
    rw [(h.marked a ha).all u hu, (h.marked b hb).all v hv, ha1, hb1]
  · intro hall
    constructor
    · intro o ho u hu
      rw [(h.marked o ho).all u hu]
      exact (h.bounds o ho).1
    · refine h.ordered.imp_of_mem fun {a b} ha hb hab u hu v hv => ?_
      rw [(h.marked a ha).all u hu, (h.marked b hb).all v hv]
      exact (hab (hall a ha) (hall b hb)).ne

/-- A request that shows frame buffer `fb` on the plane of `onePlane`, and its commit. -/
def planeFrame (req : ℕ) (fb : UInt64) (settlems clock : ℤ) : List Event :=
  [.addProperty req 5 17 fb, .commit req false
    { Env.bare { Tunables.init with settlems := settlems } clock with driver := onePlane.driver }]

/-- Two commits, and no settle pass. -/
theorem uniqueMarkers_two_commits : UniqueMarkers (outputs (Shim.step Libs.all) Shim.init
    (planeFrame 0 100 0 5 ++ planeFrame 1 101 0 1009)) :=
  (uniqueMarkers_iff Libs.all _ (by decide)).mpr ⟨id, id, id, id, trivial⟩

/-- A commit, and the settle pass after it: the plane gets its parameters with marker 1, and the
pass is sent with marker 1. -/
theorem not_uniqueMarkers_settle :
    (outputs (Shim.step Libs.all) Shim.init
      (planeFrame 0 100 100 5 ++ [.settle 1000 true])).length < 2 ^ 31 ∧
    (∃ i u, outputs (Shim.step Libs.all) Shim.init (planeFrame 0 100 100 5 ++ [.settle 1000 true])
        = [.injected 0 i, .settled u] ∧
      i.adds = [⟨5, 20, .parmsAddr⟩, ⟨5, 21, .count 1⟩] ∧ (i.parms 0).updateMarker = 1 ∧
      u.updateMarker = 1) ∧
    ¬ UniqueMarkers (outputs (Shim.step Libs.all) Shim.init
      (planeFrame 0 100 100 5 ++ [.settle 1000 true])) :=
  ⟨by decide, ⟨_, _, rfl, by decide, by decide, by decide⟩, by decide⟩

end PalmaEos
