import PalmaEos.DamageSeqlock
import PalmaEos.SubmittedRects

/-!
# The first snapshot of a lifetime

What is on the panel when SurfaceFlinger starts is unknown, so its initialiser asks for a full pass
before any damage is honoured. The initialiser runs inside the first call of `publishEpdcDamage`,
which then publishes the damage it was called for: a shim that does not read in between never sees
the request.

A lifetime starts on a page that an earlier one may have left at any word, with the shim attached
or not. A snapshot is of the lifetime when its attempt starts after the initialiser has stored the
number; an attempt that was under way by then has loaded the number of an earlier lifetime.

## Main results

* `OpeningInv.step` — every step keeps the seqlock's invariant for the lifetime
* `firstFull_iff` — the first snapshot asks for a full pass exactly when no publication with
  rectangles was the newest one then
-/

namespace PalmaEos

open Seqlock

/-! ### A lifetime -/

/-- SurfaceFlinger is about to run `epdcDamageMap`, whatever stands in the file and wherever the
shim is. -/
structure Sharing.Opens (s : Sharing) : Prop where
  boot : s.boot = epdcDamageMap
  writer : s.lock.writer = .idle

/-- What a trace says about the lifetime. -/
structure Lifetime where
  /-- The initialiser has stored the number. -/
  begun : Bool
  /-- An attempt has started since. -/
  read : Bool
  notes : List (Note Publication DamageRead)

/-- What an attempt does that was under way when the initialiser stored the number is left out. -/
def Lifetime.next (l : Lifetime) : SharingNote → Lifetime
  | .stored .seq => { l with begun := true }
  | .shared .started =>
    if l.begun then { l with read := true, notes := l.notes ++ [.started] } else l
  | .shared n =>
    if l.read ∨ n.publication?.isSome then { l with notes := l.notes ++ [n] } else l
  | _ => l

def lifetime (notes : List SharingNote) : Lifetime := notes.foldl Lifetime.next ⟨false, false, []⟩

/-- The snapshot makes the shim refresh the whole panel. -/
def DamageRead.AsksAll (r : DamageRead) : Prop := r.full ≠ 0 ∨ r.n = 0

/-- `r` is what the first accepting attempt of the trace hands out, after `pre`. -/
def FirstAccepted (notes pre : List (Note Publication DamageRead)) (r : DamageRead) : Prop :=
  ∃ s post, notes = pre ++ .accepted s r :: post ∧ ∀ s' r', .accepted s' r' ∉ pre

/-- The first snapshot asks for a full pass. -/
def FirstFull (notes : List (Note Publication DamageRead)) : Prop :=
  ∀ pre r, FirstAccepted notes pre r → r.AsksAll

/-- When the first snapshot is accepted, nothing has been published, or the newest publication has
no rectangles: it was forced to a full pass, or its region is empty. -/
def FirstBare (notes : List (Note Publication DamageRead)) : Prop :=
  ∀ pre r, FirstAccepted notes pre r →
    ∀ p t, (publications pre).getLast? = some (p, t) → p.2 = true ∨ p.1.rects = []

section Record

variable {notes : List SharingNote} {n : SharingNote}

theorem lifetime_concat : lifetime (notes ++ [n]) = (lifetime notes).next n := by
  rw [lifetime, List.foldl_append, List.foldl_cons, List.foldl_nil, ← lifetime]

/-- The record only grows. -/
theorem notes_next (l : Lifetime) (n : SharingNote) : l.notes <+: (l.next n).notes := by
  rw [Lifetime.next.eq_def]
  split
  · exact List.prefix_refl _
  · split_ifs
    · exact List.prefix_append _ _
    · exact List.prefix_refl _
  · split_ifs
    · exact List.prefix_append _ _
    · exact List.prefix_refl _
  · exact List.prefix_refl _

theorem notes_lifetime_append (notes notes' : List SharingNote) :
    (lifetime notes).notes <+: (lifetime (notes ++ notes')).notes := by
  rw [lifetime, lifetime, List.foldl_append]
  generalize notes.foldl Lifetime.next ⟨false, false, []⟩ = l
  induction notes' generalizing l with
  | nil => exact List.prefix_refl _
  | cons n notes' ih => exact (notes_next l n).trans (ih (l.next n))

end Record

/-! ### The invariant -/

/-- The lock as the lifetime sees it: without the attempt of an earlier one. -/
def ownLock (read : Bool) (lock : Seqlock.State Page Publication DamageRead) :
    Seqlock.State Page Publication DamageRead :=
  if read then lock else { lock with reader := .idle }

/-- **The invariant of a lifetime**: the initialiser has yet to store the number, or the seqlock
keeps its invariant, without an attempt that was under way before. -/
inductive OpeningInv (notes : List SharingNote) (s : Sharing) : Prop
  | initialising (k : ℕ) (hk : k < 4) (hboot : s.boot = epdcDamageMap.drop k)
      (hwriter : s.lock.writer = .idle) (hcount : 0 < k → s.lock.mem.count = 0)
      (hfull : 1 < k → s.lock.mem.full = 1) (hnotes : lifetime notes = ⟨false, false, []⟩)
  | sharing (hboot : s.boot = [] ∨ s.boot = [.magic]) (hbegun : (lifetime notes).begun = true)
      (hlock : Inv damageProtocol 2 initialRead (lifetime notes).notes
        (ownLock (lifetime notes).read s.lock))

section Steps

variable {notes : List SharingNote} {s : Sharing} {p : Publication}

/-- A step of the writer is one for the lifetime, too. -/
theorem ownLock_writeStep (read : Bool) (lock : Seqlock.State Page Publication DamageRead) :
    ownLock read (writeStep damageProtocol p lock).1
        = (writeStep damageProtocol p (ownLock read lock)).1 ∧
      (writeStep damageProtocol p (ownLock read lock)).2
        = (writeStep damageProtocol p lock).2 := by
  cases read with
  | true => exact ⟨rfl, rfl⟩
  | false =>
    have hstep : writeStep damageProtocol p (ownLock false lock) = _ :=
      writeStep_reader damageProtocol p lock .idle
    rw [hstep]
    exact ⟨rfl, rfl⟩

/-- What a publication adds to the record. -/
theorem lifetime_written (lock : Seqlock.State Page Publication DamageRead) :
    lifetime (notes ++ ((writeStep damageProtocol p lock).2.map SharingNote.shared).toList)
      = { lifetime notes with
          notes := (lifetime notes).notes ++ (writeStep damageProtocol p lock).2.toList } := by
  rcases hw : lock.writer with _ | ⟨q, s⟩ | ⟨q, s, _ | ⟨f, rest⟩⟩ <;>
    simp only [writeStep, hw, Option.map_none, Option.toList_none, List.append_nil]
  rw [Option.map_some, Option.toList_some, Option.toList_some, lifetime_concat]
  exact if_pos (Or.inr rfl)

/-- The last store of the initialiser before the seqlock is in use. -/
theorem inv_initialised {mem : Page} (hcount : mem.count = 0) (hfull : mem.full = 1) :
    Inv damageProtocol 2 initialRead [] ⟨{ mem with seq := 2 }, .idle, .idle⟩ := by
  refine Inv.start rfl ?_
  change readLoads.eval _ = _
  rw [eval_readLoads]
  simp only [hcount, hfull]
  rfl

/-- **SurfaceFlinger keeps the invariant.** -/
theorem OpeningInv.surfaceFlinger (h : OpeningInv notes s) :
    OpeningInv (notes ++ (s.step (.surfaceFlinger p)).2.toList)
      (s.step (.surfaceFlinger p)).1 := by
  cases h with
  | initialising k hk hboot hwriter hcount hfull hnotes =>
    have hlifetime : ∀ w : InitStore, w ≠ .seq →
        lifetime (notes ++ [.stored w]) = ⟨false, false, []⟩ := by
      intro w hw
      rw [lifetime_concat, hnotes]
      cases w <;> first | rfl | exact absurd rfl hw
    obtain rfl | rfl | rfl | rfl : k = 0 ∨ k = 1 ∨ k = 2 ∨ k = 3 := by omega
    · simp only [Sharing.step, hboot]
      exact .initialising 1 (by omega) rfl hwriter (fun _ => rfl) (fun h => absurd h (by omega))
        (hlifetime _ (by decide))
    · simp only [Sharing.step, hboot]
      exact .initialising 2 (by omega) rfl hwriter (fun _ => hcount (by omega)) (fun _ => rfl)
        (hlifetime _ (by decide))
    · simp only [Sharing.step, hboot]
      exact .initialising 3 (by omega) rfl hwriter (fun _ => hcount (by omega))
        (fun _ => hfull (by omega)) (hlifetime _ (by decide))
    · have hseq : lifetime (notes ++ [.stored .seq]) = ⟨true, false, []⟩ := by
        rw [lifetime_concat, hnotes]
        rfl
      simp only [Sharing.step, hboot]
      refine .sharing (Or.inr rfl) (congrArg Lifetime.begun hseq) ?_
      have hinv := inv_initialised (hcount (by omega)) (hfull (by omega))
      rw [← hwriter] at hinv
      change Inv damageProtocol 2 initialRead (lifetime (notes ++ [.stored .seq])).notes
        (ownLock (lifetime (notes ++ [.stored .seq])).read _)
      rw [hseq]
      exact hinv
  | sharing hboot hbegun hlock =>
    rcases hboot with hboot | hboot
    · simp only [Sharing.step, hboot]
      obtain ⟨hown, hnote⟩ := ownLock_writeStep (p := p) (lifetime notes).read s.lock
      refine .sharing (Or.inl rfl) ?_ ?_
      · rw [lifetime_written]
        exact hbegun
      · rw [lifetime_written]
        dsimp only
        rw [hown, ← hnote]
        exact hlock.write p
    · have hmagic : lifetime (notes ++ [.stored .magic]) = lifetime notes := by
        rw [lifetime_concat]
        rfl
      simp only [Sharing.step, hboot]
      refine .sharing (Or.inl rfl) ?_ ?_
      · exact hmagic ▸ hbegun
      · change Inv damageProtocol 2 initialRead (lifetime (notes ++ [.stored .magic])).notes
          (ownLock (lifetime (notes ++ [.stored .magic])).read s.lock)
        rw [hmagic]
        exact hlock

/-- An attempt under way when the number is stored is left out of the record. -/
theorem lifetime_left_out {n : Note Publication DamageRead} (hread : (lifetime notes).read = false)
    (hn : n.publication? = none) (hstarted : n = .started → (lifetime notes).begun = false) :
    lifetime (notes ++ [.shared n]) = lifetime notes := by
  rw [lifetime_concat]
  cases n with
  | started => exact if_neg (by rw [hstarted rfl]; exact Bool.false_ne_true)
  | published p t => cases hn
  | torn => exact if_neg (by simp [hread, Note.publication?])
  | accepted t r => exact if_neg (by simp [hread, Note.publication?])

/-- An attempt that started in the lifetime is recorded. -/
theorem lifetime_recorded {n : Note Publication DamageRead} (hbegun : (lifetime notes).begun = true)
    (hn : n = .started ∨ (lifetime notes).read = true) :
    lifetime (notes ++ [.shared n]) = ⟨true, true, (lifetime notes).notes ++ [n]⟩ := by
  rw [lifetime_concat]
  cases n with
  | started => exact (if_pos hbegun).trans (by rw [hbegun])
  | published p t | torn | accepted t r =>
    have hread := hn.resolve_left nofun
    exact (if_pos (Or.inl hread)).trans (by rw [hbegun, hread])

/-- The invariant is about the record, the initialiser and the lock. -/
theorem OpeningInv.of_same {notes' : List SharingNote} {s' : Sharing} (h : OpeningInv notes s)
    (hrecord : lifetime notes' = lifetime notes) (hboot : s'.boot = s.boot)
    (hlock : s'.lock = s.lock) : OpeningInv notes' s' := by
  cases h with
  | initialising k hk hboot' hwriter hcount hfull hnotes =>
    exact .initialising k hk (hboot.trans hboot') (hlock ▸ hwriter) (hlock ▸ hcount)
      (hlock ▸ hfull) (hrecord.trans hnotes)
  | sharing hboot' hbegun hinv =>
    exact .sharing (hboot ▸ hboot') (hrecord ▸ hbegun) (by rw [hrecord, hlock]; exact hinv)

/-- A step of `read_damage`. -/
theorem OpeningInv.read (h : OpeningInv notes s) (htimely : Timely (lifetime notes).notes) :
    OpeningInv (notes ++ ((readStep damageProtocol s.lock).2.map SharingNote.shared).toList)
      { s with lock := (readStep damageProtocol s.lock).1 } := by
  have hframe := readStep_frame damageProtocol s.lock
  have hnote := fun n (hn : (readStep damageProtocol s.lock).2 = some n) =>
    readStep_note damageProtocol hn
  -- a step that adds nothing to the record
  have hleft : (lifetime notes).read = false → ((lifetime notes).begun = true →
      s.lock.reader ≠ .idle) → lifetime (notes ++
        ((readStep damageProtocol s.lock).2.map SharingNote.shared).toList) = lifetime notes := by
    intro hread hbusy
    cases hn : (readStep damageProtocol s.lock).2 with
    | none => rw [Option.map_none, Option.toList_none, List.append_nil]
    | some n =>
      rw [Option.map_some, Option.toList_some]
      refine lifetime_left_out hread (hnote n hn).1 fun hstarted => ?_
      exact Bool.eq_false_iff.mpr fun hbegun => hbusy hbegun ((hnote n hn).2.mp hstarted)
  cases h with
  | initialising k hk hboot hwriter hcount hfull hnotes =>
    rw [hframe]
    refine .initialising k hk hboot hwriter hcount hfull ?_
    rw [hleft (by rw [hnotes]) (by simp [hnotes]), hnotes]
  | sharing hboot hbegun hlock =>
    by_cases hown : (lifetime notes).read = true ∨ s.lock.reader = .idle
    · -- the attempt is one of the lifetime
      have hinv : Inv damageProtocol 2 initialRead (lifetime notes).notes s.lock := by
        rw [ownLock] at hlock
        split_ifs at hlock with hread
        · exact hlock
        · rwa [← hown.resolve_left hread] at hlock
      have hread := hinv.read rfl htimely
      cases hn : (readStep damageProtocol s.lock).2 with
      | none =>
        rw [hn, Option.toList_none, List.append_nil] at hread
        rw [Option.map_none, Option.toList_none, List.append_nil]
        refine .sharing hboot hbegun ?_
        rw [ownLock]
        split_ifs
        · exact hread
        · exact hread.forget
      | some n =>
        have hrecorded := lifetime_recorded (n := n) hbegun
          (hown.symm.imp_left (hnote n hn).2.mpr)
        rw [hn, Option.toList_some] at hread
        rw [Option.map_some, Option.toList_some]
        refine .sharing hboot (congrArg Lifetime.begun hrecorded) ?_
        rw [hrecorded]
        exact hread
    · -- the attempt was under way before
      rw [not_or, Bool.not_eq_true] at hown
      have hsame := hleft hown.1 fun _ => hown.2
      refine .sharing hboot (hsame ▸ hbegun) ?_
      rw [hsame, hown.1, hframe]
      rw [hown.1] at hlock
      exact hlock

/-- **The shim keeps the invariant.** -/
theorem OpeningInv.composer (h : OpeningInv notes s) (htimely : Timely (lifetime notes).notes) :
    OpeningInv (notes ++ (s.step .composer).2.toList) (s.step .composer).1 := by
  rcases hlink : s.link with _ | _ | k
  · simp only [Sharing.step, hlink, Option.toList_none, List.append_nil]
    exact h.of_same rfl rfl rfl
  · simp only [Sharing.step, hlink]
    split_ifs with hversion
    · rw [Option.toList_none, List.append_nil]
      exact h.of_same rfl rfl rfl
    · refine h.of_same ?_ rfl rfl
      rw [Option.toList_some, lifetime_concat]
      rfl
  · have hread := h.read htimely
    simp only [Sharing.step, hlink]
    exact hread.of_same rfl (lock_takeNote _ _).2 (lock_takeNote _ _).1

/-- **Every step keeps the invariant.** -/
theorem OpeningInv.step {e : Turn} (h : OpeningInv notes s)
    (htimely : Timely (lifetime (notes ++ (s.step e).2.toList)).notes) :
    OpeningInv (notes ++ (s.step e).2.toList) (s.step e).1 := by
  cases e with
  | surfaceFlinger p => exact h.surfaceFlinger
  | composer =>
    obtain ⟨rest, hrest⟩ := notes_lifetime_append notes (s.step .composer).2.toList
    rw [← hrest] at htimely
    exact h.composer htimely.of_append

/-- What the lifetime accepts is sound, in any run. -/
theorem sound_lifetime (hs : s.Opens) (es : List Turn)
    (htimely : Timely (lifetime (outputs Sharing.step s es)).notes) :
    Sound damageProtocol 2 initialRead (lifetime (outputs Sharing.step s es)).notes := by
  have hinit : OpeningInv [] s :=
    .initialising 0 (by omega) hs.boot hs.writer (fun h => absurd h (by omega))
      (fun h => absurd h (by omega)) rfl
  have hshorter : ∀ l l' : List SharingNote, Timely (lifetime (l ++ l')).notes →
      Timely (lifetime l).notes := by
    intro l l' h
    obtain ⟨rest, hrest⟩ := notes_lifetime_append l l'
    rw [← hrest] at h
    exact h.of_append
  have hrun := run_inv (fun _ _ _ h htimely => OpeningInv.step h htimely) hinit
    (along_outputs (Q := fun l => Timely (lifetime l).notes) hshorter htimely)
  rw [List.nil_append] at hrun
  generalize after Sharing.step s es = final at hrun
  cases hrun with
  | initialising k hk hboot hwriter hcount hfull hnotes =>
    rw [hnotes]
    intro pre t r post heq
    simp at heq
  | sharing hboot hbegun hlock => exact hlock.sound

end Steps

/-! ### The first snapshot -/

/-- A snapshot as the rest of the commit works on it. -/
def DamageRead.snapshot (r : DamageRead) (changed : Bool) : Snapshot :=
  ⟨fun i => r.out[i.val]?.getD ⟨0, 0, 0, 0⟩, r.n.toNat, r.full, changed⟩

/-- The update that is injected from a snapshot that asks for a full pass covers the panel. -/
theorem DamageRead.AsksAll.covers {r : DamageRead} (h : r.AsksAll) (hn : r.n.toNat ≤ 8)
    (t : Tunables) (usf : ℤ) (parms : Fin 8 → Upd) (dt : ℤ) (changed : Bool) {x y : ℤ}
    (hp : panel.Has x y) :
    ∃ i : Fin 8, i.val < (submit t usf parms dt (r.snapshot changed)).n ∧
      ((submit t usf parms dt (r.snapshot changed)).parms i).ltrb.Has x y := by
  refine initParms_covers t usf parms dt hn ?_ hp
  rcases h with hfull | hzero
  · exact Or.inl hfull
  · refine Or.inr (Or.inl ?_)
    rw [DamageRead.snapshot, hzero]
    rfl

theorem asksAll_initialRead : initialRead.AsksAll := Or.inr rfl

/-- A publication asks for everything when it is forced to, or has nothing to ask for. -/
theorem asksAll_publishedRead (p : Publication) :
    (publishedRead p).AsksAll ↔ p.2 = true ∨ p.1.rects = [] := by
  have hnil : publishedRects p.1 p.2 = [] ↔ p.2 = true ∨ p.1.rects = [] := by
    rw [publishedRects]
    split_ifs with hfull hfew hmany
    · exact iff_of_true rfl (Or.inl hfull)
    · exact (or_iff_right hfull).symm
    · refine iff_of_false (by simp) ?_
      rintro (h | h)
      · exact hfull h
      · rw [h] at hmany
        exact absurd hmany (by decide)
    · exact iff_of_true rfl (Or.inr (List.length_eq_zero_iff.mp (by omega)))
  have hlen := length_publishedRects_le p.1 p.2
  have hcount : (publishedRead p).n = 0 ↔ (publishedRects p.1 p.2).length = 0 := by
    rw [publishedRead, ← UInt32.toNat_inj, UInt32.toNat_ofNat', UInt32.toNat_zero,
      Nat.mod_eq_of_lt (lt_of_le_of_lt hlen (by decide))]
  have hfull : (publishedRead p).full ≠ 0 ↔ p.2 = true ∨ (publishedRects p.1 p.2).length = 0 := by
    rw [publishedRead]
    dsimp only
    split_ifs with h
    · exact iff_of_true (by decide) h
    · exact iff_of_false (by simp) h
  rw [DamageRead.AsksAll, hcount, hfull, List.length_eq_zero_iff, hnil]
  tauto

/-- **When the first snapshot asks for a full pass.** SurfaceFlinger starts on any page, with the
shim at any place, and both take their steps in any order. The first snapshot of the lifetime asks
for a full pass if and only if nothing had been published when it was accepted, or the newest
publication was forced to a full pass or had an empty region: the request of the initialiser is
overwritten by the publication that follows it in the same call. -/
theorem firstFull_iff {s : Sharing} (hs : s.Opens) (es : List Turn)
    (htimely : Timely (lifetime (outputs Sharing.step s es)).notes) :
    FirstFull (lifetime (outputs Sharing.step s es)).notes ↔
      FirstBare (lifetime (outputs Sharing.step s es)).notes := by
  have hsound := sound_lifetime hs es htimely
  refine forall₂_congr fun pre r => ?_
  refine imp_congr_right ?_
  rintro ⟨t, post, heq, -⟩
  obtain ⟨-, hr, -⟩ := hsound pre t r post heq
  rw [hr, newest]
  cases hlast : (publications pre).getLast? with
  | none => exact iff_of_true asksAll_initialRead fun p t h => absurd h.symm (Option.some_ne_none _)
  | some q =>
    rw [Option.map_some, Option.getD_some]
    refine (asksAll_publishedRead q.1).trans ?_
    constructor
    · rintro h p t ⟨⟩
      exact h
    · intro h
      exact h q.1 q.2 rfl

/-- The shim as it attaches to a fresh page before anything is published on it. -/
def earlyTurns : List Turn :=
  let empty : Publication := (⟨[], ⟨0, 0, 0, 0⟩, by simp, by simp⟩, false)
  List.replicate 5 (.surfaceFlinger empty) ++ List.replicate 6 .composer

theorem firstFull_early :
    FirstFull (lifetime (outputs Sharing.step Sharing.start earlyTurns)).notes := by
  refine (firstFull_iff ⟨rfl, rfl⟩ earlyTurns (Timely.of_length (by decide +kernel))).mpr ?_
  have hnotes : (lifetime (outputs Sharing.step Sharing.start earlyTurns)).notes
      = [.started, .accepted 2 initialRead] := rfl
  rintro pre r ⟨t, post, heq, -⟩ p u hlast
  rw [hnotes] at heq
  rcases pre with _ | ⟨a, _ | ⟨b, pre⟩⟩
  · cases heq
  · obtain ⟨rfl, -⟩ := List.cons.inj heq
    cases hlast
  · simp at heq

/-- A run that initialises, attaches, publishes one rectangle and reads it. -/
def cornerTurns : List Turn :=
  List.replicate 5 (.surfaceFlinger corner) ++ List.replicate 2 .composer ++
    List.replicate 9 (.surfaceFlinger corner) ++ List.replicate 8 .composer

/-- What the shim reads after a first call that publishes one small rectangle. -/
def cornerRead : DamageRead := ⟨1, 0, [⟨0, 0, 10, 10⟩]⟩

/-- The shim reads after the first call, and what it injects leaves the rest of the panel as it
was. -/
theorem not_firstFull_corner : Sharing.start.Opens ∧
    ¬ FirstFull (lifetime (outputs Sharing.step Sharing.start cornerTurns)).notes ∧
    ¬ ∃ i : Fin 8,
      i.val < (submit Tunables.init 0 zeroParms (-1) (cornerRead.snapshot true)).n ∧
        ((submit Tunables.init 0 zeroParms (-1) (cornerRead.snapshot true)).parms i).ltrb.Has
          100 100 := by
  refine ⟨⟨rfl, rfl⟩, fun hfull => ?_, by decide⟩
  have hcorner : cornerRead.AsksAll := by
    refine hfull ((lifetime (outputs Sharing.step Sharing.start cornerTurns)).notes.take 2) _
      ⟨4, [], rfl, ?_⟩
    intro t r hmem
    change _ ∈ [_, Note.started] at hmem
    simp at hmem
  rcases hcorner with h | h
  · exact h rfl
  · exact absurd h (by decide)

end PalmaEos
