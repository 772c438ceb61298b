import Mathlib.Data.List.Induction
import PalmaEos.DamageLoss
import PalmaEos.DamageSeqlock
import PalmaEos.DelayedFrames

/-!
# SurfaceFlinger restarts

The sequence number of the damage page doubles as a change detector: the shim compares it with
`last_dmg_seq`, the number it accepted before. The number belongs to a lifetime of SurfaceFlinger,
whose initialiser starts it at 2 again, while `last_dmg_seq` lives on in the composer.

Here SurfaceFlinger restarts, publishes, and the shim is called, in any order; every publication
and every read is taken as a whole.

## Main results

* `read_eq` — what a read reports, by the numbers of frames of the two lifetimes
* `changeDetector_exact_iff` — the change detector is exact unless two lifetimes have published
  equally many frames
-/

namespace PalmaEos

/-! ### Lifetimes -/

/-- The page after the initialiser in `epdcDamageMap`. -/
def Page.initialise (page : Page) : Page := { page with seq := 2, count := 0, full := 1 }

/-- The stores of the initialiser, taken as a whole. -/
theorem initialise_eq (s : Sharing) :
    (epdcDamageMap.foldl (fun s w => w.run s) s).lock.mem = s.lock.mem.initialise := rfl

/-- What an attempt loads from a page at rest. -/
def Page.view (page : Page) : View := ⟨page.seq, page.count, page.full, page.rect, page.seq⟩

inductive LifetimeEvent
  /-- A new SurfaceFlinger has run its initialiser. -/
  | restart
  | publish (damage : Region) (forceFull : Bool)
  | call (e : Event)

/-- What the trace of a run records. -/
inductive Seen
  | restarted
  | published
  /-- `read_damage` has accepted, and reports whether anything has changed. -/
  | read (changed : Bool)
  deriving DecidableEq

/-- What `read_damage` reports in `*changed` when the call makes it accept a snapshot. -/
def reported (libs : Libs) (s : Shim) : Event → Option Bool
  | .commit _ testOnly env =>
    if Drives env testOnly s ∧ (prepare libs env s).attached = true ∧
        (firstStable env.views).isSome then
      some (snapshot env (prepare libs env s)).changed
    else none
  | _ => none

/-- One step of SurfaceFlinger, restarts included, or of the composer. -/
def Display.lifetimeStep (libs : Libs) (d : Display) : LifetimeEvent → Display × Option Seen
  | .restart => ({ d with page := d.page.initialise }, some .restarted)
  | .publish damage forceFull =>
    ({ d with page := publishEpdcDamage d.page damage forceFull }, some .published)
  | .call e => ({ d with shim := (d.shim.step libs e).1 }, (reported libs d.shim e).map .read)

/-- A commit that is told that nothing has changed is suppressed. -/
theorem step_of_unchanged {libs : Libs} {s : Shim} {e : Event}
    (h : reported libs s e = some false) : (s.step libs e).2 = none := by
  cases e with
  | addProperty => cases h
  | settle => cases h
  | commit req testOnly env =>
    rw [reported] at h
    split_ifs at h with hreads
    have hunchanged : ¬ Fires env (prepare libs env s) := by
      rw [Fires, hreads.2.1, Option.some.inj h]
      simp
    simp only [Shim.step]
    rcases drmModeAtomicCommit_cases libs env testOnly s with
      ⟨-, heq⟩ | ⟨-, -, heq⟩ | ⟨-, hfires, -, -⟩
    · rw [heq]
      rfl
    · rw [heq]
      rfl
    · exact absurd hfires hunchanged

/-- A frame has been published since the last snapshot that was accepted. -/
def Unseen (trace : List Seen) : Prop :=
  Owed (fun o (_ : Unit) => o = .published) (fun o _ => ∃ b, o = .read b) trace ()

/-- **The change detector is exact**: where a snapshot is accepted and nothing is reported to have
changed, nothing has been published since the snapshot accepted before it. -/
def ExactDetector (trace : List Seen) : Prop :=
  ∀ pre post, trace = pre ++ .read false :: post → ¬ Unseen pre

/-- The frames published in this lifetime, and those that had been published in its own when a
snapshot was accepted last. -/
structure Counts where
  frames : ℕ
  accepted : Option ℕ

def Counts.next (c : Counts) : Seen → Counts
  | .restarted => { c with frames := 0 }
  | .published => { c with frames := c.frames + 1 }
  | .read _ => { c with accepted := some c.frames }

def counts (trace : List Seen) : Counts := trace.foldl Counts.next ⟨0, none⟩

/-- The number of this lifetime's frames is that of the snapshot accepted last. Before the first
one `last_dmg_seq` is 0, which is also the number of frame 2^31 - 1. -/
def Counts.Meet (c : Counts) : Prop :=
  match c.accepted with
  | some n => n = c.frames
  | none => c.frames = 2 ^ 31 - 1

/-- What the surroundings promise: SurfaceFlinger publishes to a page that it has initialised, the
shim finds no such page before, and reads it at rest. -/
def Uninterrupted (trace : List Seen) (d : Display) : LifetimeEvent → Prop
  | .publish _ _ => .restarted ∈ trace
  | .call (.commit _ _ env) =>
    env.views = (fun _ => d.page.view) ∧ (env.file = .valid → .restarted ∈ trace)
  | _ => True

/-! ### The numbers -/

/-- The sequence number after `n` frames of a lifetime. -/
def frameSeq (n : ℕ) : UInt32 := UInt32.ofNat (2 + 2 * n)

theorem frameSeq_succ (n : ℕ) : frameSeq (n + 1) = frameSeq n + 1 + 1 := by
  apply UInt32.toNat_inj.mp
  simp only [frameSeq, UInt32.toNat_add, UInt32.toNat_ofNat', UInt32.toNat_one]
  omega

theorem frameSeq_even (n : ℕ) : frameSeq n &&& 1 = 0 := by
  rw [Seqlock.and_one_eq_zero_iff, frameSeq, UInt32.toNat_ofNat']
  omega

theorem frameSeq_inj {m n : ℕ} (hm : m < 2 ^ 31) (hn : n < 2 ^ 31) :
    frameSeq m = frameSeq n ↔ m = n := by
  rw [frameSeq, frameSeq, ← UInt32.toNat_inj, UInt32.toNat_ofNat', UInt32.toNat_ofNat']
  omega

theorem frameSeq_eq_zero {n : ℕ} (hn : n < 2 ^ 31) : frameSeq n = 0 ↔ n = 2 ^ 31 - 1 := by
  rw [frameSeq, ← UInt32.toNat_inj, UInt32.toNat_ofNat', UInt32.toNat_zero]
  omega

/-- `last_dmg_seq`, by the frames of the snapshot accepted last. -/
def Counts.lastSeq (c : Counts) : UInt32 := (c.accepted.map frameSeq).getD 0

/-- The two numbers are equal exactly when the counts meet. -/
theorem frameSeq_eq_lastSeq {c : Counts} (hframes : c.frames < 2 ^ 31)
    (haccepted : ∀ n ∈ c.accepted, n < 2 ^ 31) : frameSeq c.frames = c.lastSeq ↔ c.Meet := by
  obtain ⟨frames, accepted⟩ := c
  cases accepted with
  | none => exact frameSeq_eq_zero hframes
  | some n => exact (frameSeq_inj hframes (haccepted n rfl)).trans eq_comm

/-- No count exceeds the number of publications. -/
theorem counts_le (trace : List Seen) : (counts trace).frames ≤ trace.count .published ∧
    ∀ n ∈ (counts trace).accepted, n ≤ trace.count .published := by
  induction trace using List.reverseRecOn with
  | nil => simp [counts]
  | append_singleton trace o ih =>
    rw [counts, List.foldl_append, List.foldl_cons, List.foldl_nil, ← counts, List.count_append]
    cases o with
    | restarted => exact ⟨Nat.zero_le _, fun n hn => le_trans (ih.2 n hn) (Nat.le_add_right _ _)⟩
    | published =>
      exact ⟨Nat.succ_le_succ ih.1, fun n hn => le_trans (ih.2 n hn) (Nat.le_add_right _ _)⟩
    | read b =>
      refine ⟨le_trans ih.1 (Nat.le_add_right _ _), ?_⟩
      rintro n ⟨⟩
      exact le_trans ih.1 (Nat.le_add_right _ _)

theorem counts_concat (trace : List Seen) (o : Seen) :
    counts (trace ++ [o]) = (counts trace).next o := by
  rw [counts, List.foldl_append, List.foldl_cons, List.foldl_nil, ← counts]

/-! ### The invariant -/

section Invariant

variable {libs : Libs} {trace : List Seen} {d : Display} {e : LifetimeEvent}

/-- Every read of the trace reports whether the number of the lifetime's frames differs from
`last_dmg_seq`. -/
def ReadsRight (trace : List Seen) : Prop :=
  ∀ pre b post, trace = pre ++ .read b :: post →
    b = (frameSeq (counts pre).frames != (counts pre).lastSeq)

structure LifetimeInv (trace : List Seen) (d : Display) : Prop where
  attached : d.shim.attached = true → .restarted ∈ trace
  seq : .restarted ∈ trace → d.page.seq = frameSeq (counts trace).frames
  remembers : d.shim.lastDmgSeq = (counts trace).lastSeq
  reads : ReadsRight trace

/-- A shim is attached before a commit prepares it, or finds the file valid. -/
theorem attached_prepare {env : Env} {s : Shim} (h : (prepare libs env s).attached = true) :
    s.attached = true ∨ env.file = .valid := by
  obtain ⟨c, t, href⟩ := refreshTunables_frame s env.props
  rw [prepare, href, attachDamage] at h
  by_cases hatt : s.attached = true
  · exact Or.inl hatt
  · right
    dsimp only at h
    split_ifs at h
    · exact absurd h hatt
    · exact absurd h hatt
    · cases hfile : env.file with
      | valid => rfl
      | absent | unmappable | mismatched =>
        rw [hfile] at h
        exact absurd h hatt

/-- A shim that is attached after a call was attached before it, or the call found the file
valid. -/
theorem attached_step {s : Shim} {e : Event} (h : (s.step libs e).1.attached = true) :
    s.attached = true ∨ ∃ req testOnly env, e = .commit req testOnly env ∧ env.file = .valid := by
  cases e with
  | addProperty => exact Or.inl h
  | settle clock opens =>
    rcases settleTick_cases libs clock opens s with ⟨b, -, heq⟩ | ⟨-, heq⟩
    · simp only [Shim.step, heq] at h
      exact Or.inl h
    · simp only [Shim.step, heq] at h
      exact Or.inl h
  | commit req testOnly env =>
    have hprepared : (prepare libs env s).attached = true → s.attached = true ∨
        ∃ req' testOnly' env', Event.commit req testOnly env = .commit req' testOnly' env' ∧
          env'.file = .valid := fun hatt =>
      (attached_prepare hatt).imp_right fun hfile => ⟨req, testOnly, env, rfl, hfile⟩
    rcases drmModeAtomicCommit_cases libs env testOnly s with
      ⟨-, heq⟩ | ⟨-, -, heq⟩ | ⟨-, -, -, heq⟩
    · obtain ⟨c, t, href⟩ := refreshTunables_frame s env.props
      simp only [Shim.step, heq, href] at h
      exact Or.inl h
    · simp only [Shim.step, heq] at h
      exact hprepared h
    · obtain ⟨cache, fbid, started, running, hframe⟩ :=
        inject_frame libs env (observed env (prepare libs env s))
          (snapshot env (prepare libs env s))
          (sinceInject libs env (prepare libs env s))
      simp only [Shim.step, heq, hframe] at h
      exact hprepared h

/-- An attempt at a page at rest is not given up. -/
theorem firstStable_view {page : Page} (h : page.seq &&& 1 = 0) :
    firstStable (fun _ => page.view) = some page.view := by
  have hstable : ¬ page.view.Contended := by
    rintro (hodd | hmoved)
    · exact hodd h
    · exact hmoved rfl
  rw [firstStable, List.ofFn_succ, List.find?_cons_of_pos (by simpa using hstable)]

/-- **A call at rest** accepts the number of the page and compares it with `last_dmg_seq`, or does
not read. -/
theorem accepts_of_rest (libs : Libs) (h : LifetimeInv trace d) {e : Event}
    (hrest : Uninterrupted trace d (.call e)) :
    accepts libs d.shim e = none ∧ reported libs d.shim e = none ∨
      .restarted ∈ trace ∧ accepts libs d.shim e = some d.page.seq ∧
        reported libs d.shim e = some (d.page.seq != d.shim.lastDmgSeq) := by
  cases e with
  | addProperty => exact Or.inl ⟨rfl, rfl⟩
  | settle => exact Or.inl ⟨rfl, rfl⟩
  | commit req testOnly env =>
    obtain ⟨hviews, hfile⟩ := hrest
    by_cases hreads : Drives env testOnly d.shim ∧ (prepare libs env d.shim).attached = true
    · have hlive : .restarted ∈ trace := (attached_prepare hreads.2).elim h.attached hfile
      have hstable : firstStable env.views = some d.page.view := by
        rw [hviews]
        exact firstStable_view (h.seq hlive ▸ frameSeq_even _)
      obtain ⟨c, t, tried, fds, maps, att, hprep⟩ := prepare_frame libs env d.shim
      refine Or.inr ⟨hlive, ?_, ?_⟩
      · rw [accepts, if_pos hreads, hstable]
        rfl
      · rw [reported, if_pos ⟨hreads.1, hreads.2, by rw [hstable]; rfl⟩, snapshot, hreads.2,
          readDamage, hstable, hprep]
        rfl
    · left
      rw [accepts, if_neg hreads, reported, if_neg fun hall => hreads ⟨hall.1, hall.2.1⟩]
      exact ⟨rfl, rfl⟩

theorem ReadsRight.concat (h : ReadsRight trace) {o : Seen}
    (ho : ∀ b, o = .read b → b = (frameSeq (counts trace).frames != (counts trace).lastSeq)) :
    ReadsRight (trace ++ [o]) := by
  intro pre b post heq
  rcases post.eq_nil_or_concat with rfl | ⟨post, o', rfl⟩
  · obtain ⟨rfl, rfl⟩ := List.append_singleton_inj.mp heq
    exact ho b rfl
  · rw [List.concat_eq_append, ← List.cons_append, ← List.append_assoc] at heq
    exact h pre b post (List.append_singleton_inj.mp heq).1

/-- **Every step keeps the invariant.** -/
theorem LifetimeInv.step (h : LifetimeInv trace d) (hrest : Uninterrupted trace d e) :
    LifetimeInv (trace ++ (d.lifetimeStep libs e).2.toList) (d.lifetimeStep libs e).1 := by
  cases e with
  | restart =>
    simp only [Display.lifetimeStep, Option.toList_some]
    refine ⟨fun _ => by simp, fun _ => ?_, ?_, h.reads.concat nofun⟩
    · rw [counts_concat]
      rfl
    · rw [counts_concat, h.remembers]
      rfl
  | publish damage forceFull =>
    simp only [Display.lifetimeStep, Option.toList_some]
    refine ⟨fun _ => List.mem_append_left _ hrest, fun _ => ?_, ?_, h.reads.concat nofun⟩
    · rw [counts_concat, publishEpdcDamage, h.seq hrest]
      exact (frameSeq_succ _).symm
    · rw [counts_concat, h.remembers]
      rfl
  | call e =>
    have hattached : ∀ o : List Seen, (d.shim.step libs e).1.attached = true →
        .restarted ∈ trace ++ o := by
      intro o hatt
      rcases attached_step hatt with hold | ⟨req, testOnly, env, rfl, hfile⟩
      · exact List.mem_append_left _ (h.attached hold)
      · exact List.mem_append_left _ (hrest.2 hfile)
    rcases accepts_of_rest libs h hrest with ⟨haccepts, hreported⟩ | ⟨hlive, haccepts, hreported⟩
    · simp only [Display.lifetimeStep, hreported, Option.map_none, Option.toList_none]
      refine ⟨hattached [], ?_, ?_, ?_⟩
      · rw [List.append_nil]
        exact h.seq
      · rw [List.append_nil, step_lastDmgSeq, haccepts]
        exact h.remembers
      · rw [List.append_nil]
        exact h.reads
    · simp only [Display.lifetimeStep, hreported, Option.map_some, Option.toList_some]
      refine ⟨hattached _, fun _ => ?_, ?_, h.reads.concat ?_⟩
      · rw [counts_concat]
        exact h.seq hlive
      · rw [counts_concat, step_lastDmgSeq, haccepts]
        exact h.seq hlive
      · rintro b ⟨⟩
        rw [h.seq hlive, h.remembers]

/-- **What a read reports**: that nothing has changed exactly when the number of this lifetime's
frames is that of the snapshot accepted last. -/
theorem read_eq (h : LifetimeInv trace d) (hfew : trace.count .published < 2 ^ 31)
    {pre post : List Seen} {b : Bool} (heq : trace = pre ++ .read b :: post) :
    b = false ↔ (counts pre).Meet := by
  have hpre : pre.count .published < 2 ^ 31 := by
    rw [heq, List.count_append] at hfew
    omega
  obtain ⟨hframes, haccepted⟩ := counts_le pre
  rw [h.reads pre b post heq, ← frameSeq_eq_lastSeq (lt_of_le_of_lt hframes hpre)
    fun n hn => lt_of_le_of_lt (haccepted n hn) hpre]
  exact bne_eq_false_iff_eq

end Invariant

/-- **When the change detector is exact.** A shim that has just been loaded meets any succession of
lifetimes of SurfaceFlinger, with fewer than 2^31 publications. What it reports is exact in the
whole run if and only if, wherever it accepts a snapshot after something new has been published,
this lifetime's frames are not as many as the lifetime of the snapshot accepted before had then. -/
theorem changeDetector_exact_iff (libs : Libs) (page : Page) (es : List LifetimeEvent)
    (hes : Along (Display.lifetimeStep libs) Uninterrupted [] ⟨Shim.init, page⟩ es)
    (hfew : (outputs (Display.lifetimeStep libs) ⟨Shim.init, page⟩ es).count .published < 2 ^ 31) :
    ExactDetector (outputs (Display.lifetimeStep libs) ⟨Shim.init, page⟩ es) ↔
      ∀ pre b post, outputs (Display.lifetimeStep libs) ⟨Shim.init, page⟩ es
          = pre ++ .read b :: post → Unseen pre → ¬ (counts pre).Meet := by
  have hinit : LifetimeInv [] ⟨Shim.init, page⟩ :=
    ⟨nofun, nofun, rfl, fun pre b post heq => by simp at heq⟩
  have hrun := run_inv (fun _ _ _ h hrest => LifetimeInv.step h hrest) hinit hes
  rw [List.nil_append] at hrun
  constructor
  · intro hexact pre b post heq hunseen hmeet
    obtain rfl := (read_eq hrun hfew heq).mpr hmeet
    exact hexact pre post heq hunseen
  · intro hapart pre post heq hunseen
    exact hapart pre false post heq hunseen ((read_eq hrun hfew heq).mp rfl)

/-- A real commit that meets the page at rest. -/
def pageCommit (page : Page) (clock : ℤ) : LifetimeEvent :=
  .call (.commit 0 false { Env.bare Tunables.init clock with
    file := .valid
    views := fun _ => page.view })

/-- The page after the first frame of the first lifetime. -/
def firstFrame : Page := publishEpdcDamage freshPage.initialise (square 0) false

/-- Two lifetimes with one frame and with two, and a commit at the end of each. -/
def growingLifetimes : List LifetimeEvent :=
  [.restart, .publish (square 0) false, pageCommit firstFrame 1000, .restart,
    .publish (square 20) false, .publish (square 40) false,
    pageCommit (publishEpdcDamage (publishEpdcDamage firstFrame.initialise (square 20) false)
      (square 40) false) 1001]

theorem changeDetector_exact_growing : ExactDetector
    (outputs (Display.lifetimeStep Libs.all) ⟨Shim.init, freshPage⟩ growingLifetimes) := by
  refine (changeDetector_exact_iff Libs.all freshPage growingLifetimes ?_
    (by decide +kernel)).mpr ?_
  · exact ⟨trivial, List.mem_cons_self, ⟨rfl, fun _ => List.mem_cons_self⟩, trivial,
      List.mem_cons_self, List.mem_cons_self, ⟨rfl, fun _ => List.mem_cons_self⟩, trivial⟩
  · have htrace : outputs (Display.lifetimeStep Libs.all) ⟨Shim.init, freshPage⟩ growingLifetimes
        = [.restarted, .published, .read true, .restarted, .published, .published, .read true] := by
      decide +kernel
    intro pre b post heq _
    rw [htrace] at heq
    have hread : ([.restarted, .published, .read true, .restarted, .published, .published,
        .read true] : List Seen)[pre.length]? = some (.read b) := by
      rw [heq, List.getElem?_append_right le_rfl, Nat.sub_self, List.getElem?_cons_zero]
    have hpre : pre = ([.restarted, .published, .read true, .restarted, .published, .published,
        .read true] : List Seen).take pre.length := by
      rw [heq, List.take_left]
    have hlt : pre.length < 7 := (List.getElem?_eq_some_iff.mp hread).1
    clear heq
    generalize pre.length = n at *
    rw [hpre]
    interval_cases n
    case «2» => exact (by decide : (1 : ℕ) ≠ 2 ^ 31 - 1)
    case «6» => exact (by decide : (1 : ℕ) ≠ 2)
    all_goals cases hread

/-- Each of two lifetimes publishes one frame, and the shim commits after each. -/
def twoLifetimes : List LifetimeEvent :=
  [.restart, .publish (square 0) false, pageCommit firstFrame 1000, .restart,
    .publish (square 20) false,
    pageCommit (publishEpdcDamage firstFrame.initialise (square 20) false) 1001]

/-- The frame of the second lifetime has the number of the first one's, and is suppressed. -/
theorem not_exact_twoLifetimes :
    Along (Display.lifetimeStep Libs.all) Uninterrupted [] ⟨Shim.init, freshPage⟩ twoLifetimes ∧
      (outputs (Display.lifetimeStep Libs.all) ⟨Shim.init, freshPage⟩ twoLifetimes).count .published
        < 2 ^ 31 ∧
      ¬ ExactDetector
        (outputs (Display.lifetimeStep Libs.all) ⟨Shim.init, freshPage⟩ twoLifetimes) := by
  have htrace : outputs (Display.lifetimeStep Libs.all) ⟨Shim.init, freshPage⟩ twoLifetimes
      = [.restarted, .published, .read true, .restarted, .published] ++ .read false :: [] := by
    decide +kernel
  refine ⟨⟨trivial, List.mem_cons_self, ⟨rfl, fun _ => List.mem_cons_self⟩, trivial,
    List.mem_cons_self, ⟨rfl, fun _ => List.mem_cons_self⟩, trivial⟩, by decide +kernel, ?_⟩
  intro hexact
  refine hexact _ _ htrace ⟨[.restarted, .published, .read true, .restarted], .published, [], rfl,
    rfl, ?_⟩
  simp

end PalmaEos
