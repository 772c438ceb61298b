import Mathlib.Algebra.Group.Nat.Defs
import Mathlib.Data.List.Basic

/-!
# Sequence locks

One writer and one reader share a memory. A publication loads the sequence number, stores it plus
one, stores the content, and stores it plus two; an attempt at reading loads the number, gives up
when it is odd, loads the content, and accepts it when the number is still the same. Every load and
every store is one step of its own, and the steps of the two sides interleave in any order.

A `Protocol` says where the number is, what a publication stores and what an attempt loads. `Inv`
ties the number and the content to what has been published, and says of an attempt under way that
what it is going to find is what the memory holds, as long as the writer has not moved.

## Main results

* `Inv.write`, `Inv.read` — the two sides keep the invariant
* `Inv.sound` — what is accepted is the content of the newest publication
-/

namespace PalmaEos

namespace Seqlock

variable {M P R : Type*}

/-! ### The two sides -/

/-- A loading program: each step looks at the memory once. -/
inductive Loads (M R : Type*)
  | done (r : R)
  | load (next : M → Loads M R)

/-- What a loading program finds in a memory at rest. -/
def Loads.eval (m : M) : Loads M R → R
  | .done r => r
  | .load next => (next m).eval m

/-- The memory after a list of stores. -/
def storeAll (fs : List (M → M)) (m : M) : M := fs.foldl (fun m f => f m) m

/-- A seqlock: the sequence number in the memory, the stores of a publication, the loads of an
attempt, and what an attempt finds when a publication has completed. -/
structure Protocol (M P R : Type*) where
  seq : M → UInt32
  setSeq : UInt32 → M → M
  stores : P → List (M → M)
  loads : Loads M R
  content : P → R
  seq_setSeq : ∀ s m, seq (setSeq s m) = s
  seq_stores : ∀ p, ∀ f ∈ stores p, ∀ m, seq (f m) = seq m
  eval_publish : ∀ p s s' m,
    loads.eval (setSeq s' (storeAll (stores p) (setSeq s m))) = content p

/-- Where the writer is. -/
inductive Writer (M P : Type*)
  | idle
  /-- It has loaded the number. -/
  | loaded (p : P) (s : UInt32)
  /-- It has made the number odd, and has yet to make these stores. -/
  | storing (p : P) (s : UInt32) (rest : List (M → M))

/-- Where the reader is. -/
inductive Reader (M R : Type*)
  | idle
  /-- It has loaded the number, and has yet to make these loads. -/
  | reading (s : UInt32) (rest : Loads M R)

/-- What the trace of a run records. -/
inductive Note (P R : Type*)
  /-- A publication has completed, with this number. -/
  | published (p : P) (s : UInt32)
  | started
  /-- An attempt was given up: the number has changed. -/
  | torn
  | accepted (s : UInt32) (r : R)

structure State (M P R : Type*) where
  mem : M
  writer : Writer M P
  reader : Reader M R

section Steps

variable (proto : Protocol M P R)

/-- A step of the writer; a new publication is that of `p`. -/
def writeStep (p : P) (st : State M P R) : State M P R × Option (Note P R) :=
  match st.writer with
  | .idle => ({ st with writer := .loaded p (proto.seq st.mem) }, none)
  | .loaded p s =>
    ({ st with mem := proto.setSeq (s + 1) st.mem, writer := .storing p s (proto.stores p) }, none)
  | .storing p s (f :: rest) => ({ st with mem := f st.mem, writer := .storing p s rest }, none)
  | .storing p s [] =>
    ({ st with mem := proto.setSeq (s + 1 + 1) st.mem, writer := .idle },
      some (.published p (s + 1 + 1)))

/-- A step of the reader. -/
def readStep (st : State M P R) : State M P R × Option (Note P R) :=
  match st.reader with
  | .idle =>
    if proto.seq st.mem &&& 1 ≠ 0 then (st, none)
    else ({ st with reader := .reading (proto.seq st.mem) proto.loads }, some .started)
  | .reading s (.load next) => ({ st with reader := .reading s (next st.mem) }, none)
  | .reading s (.done r) =>
    if s ≠ proto.seq st.mem then ({ st with reader := .idle }, some .torn)
    else ({ st with reader := .idle }, some (.accepted s r))

end Steps

/-! ### What has been published -/

/-- The publication of an entry, with its number. -/
def Note.publication? : Note P R → Option (P × UInt32)
  | .published p s => some (p, s)
  | _ => none

/-- The publications of a trace. -/
def publications (notes : List (Note P R)) : List (P × UInt32) := notes.filterMap Note.publication?

/-- The number after the publications of a trace. -/
def seqAt (s₀ : UInt32) (notes : List (Note P R)) : UInt32 :=
  s₀ + UInt32.ofNat (2 * (publications notes).length)

/-- The content after the publications of a trace. -/
def newest (proto : Protocol M P R) (r₀ : R) (notes : List (Note P R)) : R :=
  ((publications notes).getLast?.map fun p => proto.content p.1).getD r₀

/-- No attempt at reading sees 2^31 publications complete. -/
def Timely (notes : List (Note P R)) : Prop :=
  ∀ pre mid post, notes = pre ++ .started :: (mid ++ post) →
    (∀ n ∈ mid, n.publication? ≠ none) → mid.length < 2 ^ 31

/-- What is accepted in a trace is the newest content and has the newest number, the one that the
newest publication has stored. -/
def Sound (proto : Protocol M P R) (s₀ : UInt32) (r₀ : R) (notes : List (Note P R)) : Prop :=
  ∀ pre s r post, notes = pre ++ .accepted s r :: post →
    s = seqAt s₀ pre ∧ r = newest proto r₀ pre ∧
      ∀ p t, (publications pre).getLast? = some (p, t) → t = s

section Publications

variable {s₀ : UInt32} {notes pre mid : List (Note P R)} {n : Note P R}

theorem publications_append (notes notes' : List (Note P R)) :
    publications (notes ++ notes') = publications notes ++ publications notes' :=
  List.filterMap_append

theorem publications_concat_of_none (h : n.publication? = none) :
    publications (notes ++ [n]) = publications notes := by
  rw [publications_append, publications, publications, List.filterMap_cons_none h,
    List.filterMap_nil, List.append_nil]

theorem length_publications (h : ∀ n ∈ mid, n.publication? ≠ none) :
    (publications mid).length = mid.length := by
  induction mid with
  | nil => rfl
  | cons n mid ih =>
    obtain ⟨p, hp⟩ := Option.ne_none_iff_exists'.mp (h n List.mem_cons_self)
    rw [publications, List.filterMap_cons_some hp, List.length_cons, List.length_cons,
      Nat.add_right_cancel_iff]
    exact ih fun n hn => h n (List.mem_cons_of_mem _ hn)

theorem seqAt_concat_of_none (h : n.publication? = none) :
    seqAt s₀ (notes ++ [n]) = seqAt s₀ notes := by
  rw [seqAt, seqAt, publications_concat_of_none h]

theorem newest_concat_of_none {proto : Protocol M P R} {r₀ : R} (h : n.publication? = none) :
    newest proto r₀ (notes ++ [n]) = newest proto r₀ notes := by
  rw [newest, newest, publications_concat_of_none h]

theorem seqAt_concat_published (p : P) (s : UInt32) :
    seqAt s₀ (notes ++ [.published p s]) = seqAt s₀ notes + 1 + 1 := by
  rw [seqAt, seqAt, publications_append, List.length_append]
  apply UInt32.toNat_inj.mp
  simp only [UInt32.toNat_add, UInt32.toNat_ofNat', UInt32.toNat_one]
  rw [show (publications [Note.published (R := R) p s]).length = 1 from rfl]
  omega

theorem newest_concat_published {proto : Protocol M P R} {r₀ : R} (p : P) (s : UInt32) :
    newest proto r₀ (notes ++ [.published p s]) = proto.content p := by
  rw [newest, publications_append, show publications [Note.published (R := R) p s] = [(p, s)] from
    rfl, List.getLast?_concat]
  rfl

/-- The publications since an attempt has started move the number on. -/
theorem toNat_seqAt_started (s₀ : UInt32) (pre : List (Note P R))
    (h : ∀ n ∈ mid, n.publication? ≠ none) :
    (seqAt s₀ (pre ++ .started :: mid)).toNat
      = ((seqAt s₀ pre).toNat + 2 * mid.length) % 2 ^ 32 := by
  rw [seqAt, seqAt, publications_append, List.length_append,
    show publications (Note.started :: mid) = publications mid from rfl, length_publications h]
  simp only [UInt32.toNat_add, UInt32.toNat_ofNat']
  omega

theorem and_one_eq_zero_iff (s : UInt32) : s &&& 1 = 0 ↔ s.toNat % 2 = 0 := by
  rw [← UInt32.toNat_inj, UInt32.toNat_and, UInt32.toNat_one, UInt32.toNat_zero,
    Nat.and_one_is_mod]

theorem seqAt_even (notes : List (Note P R)) (hs₀ : s₀ &&& 1 = 0) :
    (seqAt s₀ notes).toNat % 2 = 0 := by
  rw [and_one_eq_zero_iff] at hs₀
  rw [seqAt]
  simp only [UInt32.toNat_add, UInt32.toNat_ofNat']
  omega

end Publications

/-- A shorter trace is timely, too. -/
theorem Timely.of_append {notes notes' : List (Note P R)} (h : Timely (notes ++ notes')) :
    Timely notes := by
  intro pre mid post heq hmid
  refine h pre mid (post ++ notes') ?_ hmid
  rw [heq]
  simp

/-- Too few publications to bring the number back. -/
theorem Timely.of_publications {notes : List (Note P R)}
    (h : (publications notes).length < 2 ^ 31) : Timely notes := by
  rintro pre mid post rfl hmid
  have hmid' := length_publications hmid
  rw [publications_append, show publications (Note.started :: (mid ++ post))
    = publications (mid ++ post) from rfl, publications_append] at h
  simp only [List.length_append] at h
  omega

theorem Timely.of_length {notes : List (Note P R)} (h : notes.length < 2 ^ 31) : Timely notes :=
  .of_publications (Nat.lt_of_le_of_lt (List.length_filterMap_le _ _) h)

/-! ### What the other side does not see -/

section Frame

variable (proto : Protocol M P R) {st : State M P R} {n : Note P R}

/-- The writer does not look at the reader. -/
theorem writeStep_reader (p : P) (st : State M P R) (reader : Reader M R) :
    writeStep proto p { st with reader := reader }
      = ({ (writeStep proto p st).1 with reader := reader }, (writeStep proto p st).2) := by
  rcases hw : st.writer with _ | ⟨q, s⟩ | ⟨q, s, _ | ⟨f, rest⟩⟩ <;> simp only [writeStep, hw]

/-- The reader changes its own place only. -/
theorem readStep_frame (st : State M P R) :
    (readStep proto st).1 = { st with reader := (readStep proto st).1.reader } := by
  rcases hr : st.reader with _ | ⟨s, _ | next⟩
  · simp only [readStep, hr]
    split_ifs <;> rfl
  · simp only [readStep, hr]
    split_ifs <;> rfl
  · simp only [readStep, hr]

/-- The reader publishes nothing, and starts when it is idle only. -/
theorem readStep_note (h : (readStep proto st).2 = some n) :
    n.publication? = none ∧ (n = .started ↔ st.reader = .idle) := by
  rcases hr : st.reader with _ | ⟨s, _ | next⟩
  · simp only [readStep, hr] at h
    split_ifs at h
    cases h
    exact ⟨rfl, by simp⟩
  · simp only [readStep, hr] at h
    split_ifs at h
    · cases h
      exact ⟨rfl, by simp⟩
    · cases h
      exact ⟨rfl, by simp⟩
  · simp only [readStep, hr] at h
    cases h

end Frame

/-! ### The invariant -/

section Inv

variable (proto : Protocol M P R)

/-- Where the writer is, against the memory: `s` and `r` are the newest number and content. -/
def WriterOk (s : UInt32) (r : R) (mem : M) : Writer M P → Prop
  | .idle => proto.seq mem = s ∧ proto.loads.eval mem = r
  | .loaded _ t => t = s ∧ proto.seq mem = s ∧ proto.loads.eval mem = r
  | .storing p t rest => t = s ∧ proto.seq mem = s + 1 ∧
      (∀ f ∈ rest, ∀ m, proto.seq (f m) = proto.seq m) ∧
      ∀ s', proto.loads.eval (proto.setSeq s' (storeAll rest mem)) = proto.content p

/-- The writer is not changing the memory. -/
def Writer.Rests : Writer M P → Prop
  | .storing _ _ _ => False
  | _ => True

variable (s₀ : UInt32) (r₀ : R) (notes : List (Note P R))

/-- An attempt under way has loaded the number that was there when it started, and as long as the
writer has not moved it will find what the memory holds. -/
def ReaderOk (st : State M P R) : Prop :=
  ∀ s rest, st.reader = .reading s rest →
    ∃ pre mid, notes = pre ++ .started :: mid ∧ (∀ n ∈ mid, n.publication? ≠ none) ∧
      s = seqAt s₀ pre ∧
      (mid = [] → st.writer.Rests → rest.eval st.mem = newest proto r₀ pre)

/-- **The invariant of a seqlock.** -/
structure Inv (st : State M P R) : Prop where
  writer : WriterOk proto (seqAt s₀ notes) (newest proto r₀ notes) st.mem st.writer
  reader : ReaderOk proto s₀ r₀ notes st
  stamped : ∀ p s, (publications notes).getLast? = some (p, s) → s = seqAt s₀ notes
  sound : Sound proto s₀ r₀ notes

end Inv

section Preservation

variable {proto : Protocol M P R} {s₀ : UInt32} {r₀ : R} {notes : List (Note P R)}
  {st : State M P R}

/-- Before anything is published. -/
theorem Inv.start {m : M} (hseq : proto.seq m = s₀) (heval : proto.loads.eval m = r₀) :
    Inv proto s₀ r₀ [] ⟨m, .idle, .idle⟩ where
  writer := ⟨by rw [hseq]; exact (UInt32.add_zero s₀).symm, heval⟩
  reader := fun s rest h => by cases h
  stamped := fun p s h => by cases h
  sound := fun pre s r post h => by simp at h

theorem Sound.concat_of_ne {n : Note P R} (h : Sound proto s₀ r₀ notes)
    (hn : ∀ s r, n ≠ .accepted s r) : Sound proto s₀ r₀ (notes ++ [n]) := by
  intro pre s r post heq
  rcases post.eq_nil_or_concat with rfl | ⟨post, n', rfl⟩
  · exact absurd (List.append_singleton_inj.mp heq).2 (hn s r)
  · rw [List.concat_eq_append, ← List.cons_append, ← List.append_assoc] at heq
    exact h pre s r post (List.append_singleton_inj.mp heq).1

theorem Sound.concat_accepted {s : UInt32} {r : R} (h : Sound proto s₀ r₀ notes)
    (hs : s = seqAt s₀ notes) (hr : r = newest proto r₀ notes)
    (hstamp : ∀ p t, (publications notes).getLast? = some (p, t) → t = seqAt s₀ notes) :
    Sound proto s₀ r₀ (notes ++ [.accepted s r]) := by
  intro pre s' r' post heq
  rcases post.eq_nil_or_concat with rfl | ⟨post, n', rfl⟩
  · obtain ⟨rfl, hacc⟩ := List.append_singleton_inj.mp heq
    cases hacc
    exact ⟨hs, hr, fun p t hlast => (hstamp p t hlast).trans hs.symm⟩
  · rw [List.concat_eq_append, ← List.cons_append, ← List.append_assoc] at heq
    exact h pre s' r' post (List.append_singleton_inj.mp heq).1

/-- A step without an entry in the trace that leaves the reader where it is. -/
theorem ReaderOk.of_moved {st' : State M P R} (h : ReaderOk proto s₀ r₀ notes st)
    (hreader : st'.reader = st.reader)
    (hmem : st'.writer.Rests → st.writer.Rests ∧ st'.mem = st.mem) :
    ReaderOk proto s₀ r₀ notes st' := by
  intro s rest hs
  obtain ⟨pre, mid, hnotes, hmid, hseq, heval⟩ := h s rest (hreader ▸ hs)
  refine ⟨pre, mid, hnotes, hmid, hseq, fun hnil hrests => ?_⟩
  obtain ⟨hold, hsame⟩ := hmem hrests
  rw [hsame]
  exact heval hnil hold

theorem WriterOk.of_rests {s : UInt32} {r : R} {mem : M} {w : Writer M P}
    (h : WriterOk proto s r mem w) (hrests : w.Rests) :
    proto.seq mem = s ∧ proto.loads.eval mem = r := by
  cases w with
  | idle => exact h
  | loaded p t => exact h.2
  | storing p t rest => exact hrests.elim

/-- While the writer stores, the number in the memory is the next one. -/
theorem WriterOk.of_not_rests {s : UInt32} {r : R} {mem : M} {w : Writer M P}
    (h : WriterOk proto s r mem w) (hrests : ¬ w.Rests) : proto.seq mem = s + 1 := by
  cases w with
  | idle => exact absurd trivial hrests
  | loaded p t => exact absurd trivial hrests
  | storing p t rest => exact h.2.1

/-- **The writer keeps the invariant.** -/
theorem Inv.write (h : Inv proto s₀ r₀ notes st) (p : P) :
    Inv proto s₀ r₀ (notes ++ (writeStep proto p st).2.toList) (writeStep proto p st).1 := by
  obtain ⟨mem, writer, reader⟩ := st
  have hok := h.writer
  cases writer with
  | idle =>
    simp only [writeStep, Option.toList_none, List.append_nil]
    exact ⟨⟨hok.1, hok⟩, h.reader.of_moved rfl fun _ => ⟨trivial, rfl⟩, h.stamped, h.sound⟩
  | loaded q s =>
    simp only [writeStep, Option.toList_none, List.append_nil]
    refine ⟨⟨hok.1, by rw [proto.seq_setSeq, hok.1], proto.seq_stores q, ?_⟩,
      h.reader.of_moved rfl fun hrests => hrests.elim, h.stamped, h.sound⟩
    exact fun s' => proto.eval_publish q _ _ _
  | storing q s rest =>
    obtain ⟨hs, hseq, hrest, heval⟩ := hok
    cases rest with
    | cons f rest =>
      simp only [writeStep, Option.toList_none, List.append_nil]
      refine ⟨⟨hs, ?_, fun g hg => hrest g (List.mem_cons_of_mem _ hg), heval⟩,
        h.reader.of_moved rfl fun hrests => hrests.elim, h.stamped, h.sound⟩
      exact (hrest f List.mem_cons_self mem).trans hseq
    | nil =>
      simp only [writeStep, Option.toList_some]
      refine ⟨⟨?_, ?_⟩, ?_, ?_, h.sound.concat_of_ne (by simp)⟩
      · rw [proto.seq_setSeq, seqAt_concat_published, hs]
      · rw [newest_concat_published]
        exact heval _
      · intro s' rest' hreader
        obtain ⟨pre, mid, hnotes, hmid, hseq', -⟩ := h.reader s' rest' hreader
        refine ⟨pre, mid ++ [.published q (s + 1 + 1)], by rw [hnotes]; simp, ?_, hseq',
          fun hnil => by simp at hnil⟩
        intro n hn
        rcases List.mem_append.mp hn with hn | hn
        · exact hmid n hn
        · rw [List.mem_singleton.mp hn]
          exact Option.some_ne_none _
      · intro p' s' hlast
        rw [publications_append, show publications [Note.published (R := R) q (s + 1 + 1)]
          = [(q, s + 1 + 1)] from rfl, List.getLast?_concat] at hlast
        rw [seqAt_concat_published, ← hs]
        exact ((Prod.mk.inj (Option.some.inj hlast)).2).symm

/-- The number that an attempt starts with is even: the writer is not storing. -/
theorem Inv.rests_of_even (h : Inv proto s₀ r₀ notes st) (hs₀ : s₀ &&& 1 = 0)
    (heven : (proto.seq st.mem).toNat % 2 = 0) : st.writer.Rests := by
  by_contra hstoring
  have hodd := congrArg UInt32.toNat (h.writer.of_not_rests hstoring)
  have hs := seqAt_even notes hs₀
  rw [UInt32.toNat_add, UInt32.toNat_one] at hodd
  omega

/-- The number has come back to what an attempt has loaded: the writer has not moved. -/
theorem Inv.unmoved (h : Inv proto s₀ r₀ notes st) (hs₀ : s₀ &&& 1 = 0) (htimely : Timely notes)
    {s : UInt32} {rest : Loads M R} (hreader : st.reader = .reading s rest)
    (hsame : s = proto.seq st.mem) :
    s = seqAt s₀ notes ∧ rest.eval st.mem = newest proto r₀ notes := by
  obtain ⟨pre, mid, hnotes, hmid, hseq, heval⟩ := h.reader s rest hreader
  have hrests : st.writer.Rests := by
    refine h.rests_of_even hs₀ ?_
    rw [← hsame, hseq]
    exact seqAt_even pre hs₀
  have hnow : s = seqAt s₀ notes := hsame.trans (h.writer.of_rests hrests).1
  have hmoved := toNat_seqAt_started s₀ pre hmid
  rw [← hnotes, ← hnow, ← hseq] at hmoved
  have hshort : mid.length < 2 ^ 31 := htimely pre mid [] (by rw [hnotes, List.append_nil]) hmid
  have hlt := s.toNat_lt
  have hnil : mid = [] := List.length_eq_zero_iff.mp (by omega)
  refine ⟨hnow, ?_⟩
  rw [heval hnil hrests, hnotes, hnil, newest_concat_of_none rfl]

/-- A step of the reader changes its own place only, and its entry in the trace publishes
nothing. -/
theorem Inv.of_read (h : Inv proto s₀ r₀ notes st) {n : Note P R} {reader : Reader M R}
    (hn : n.publication? = none)
    (hreader : ReaderOk proto s₀ r₀ (notes ++ [n]) { st with reader := reader })
    (hsound : Sound proto s₀ r₀ (notes ++ [n])) :
    Inv proto s₀ r₀ (notes ++ [n]) { st with reader := reader } where
  writer := by
    rw [seqAt_concat_of_none hn, newest_concat_of_none hn]
    exact h.writer
  reader := hreader
  stamped := by
    rw [publications_concat_of_none hn, seqAt_concat_of_none hn]
    exact h.stamped
  sound := hsound

/-- An attempt under way can be forgotten. -/
theorem Inv.forget (h : Inv proto s₀ r₀ notes st) :
    Inv proto s₀ r₀ notes { st with reader := .idle } :=
  ⟨h.writer, nofun, h.stamped, h.sound⟩

/-- **The reader keeps the invariant.** -/
theorem Inv.read (h : Inv proto s₀ r₀ notes st) (hs₀ : s₀ &&& 1 = 0) (htimely : Timely notes) :
    Inv proto s₀ r₀ (notes ++ (readStep proto st).2.toList) (readStep proto st).1 := by
  have hidle : ∀ n : Note P R,
      ReaderOk proto s₀ r₀ (notes ++ [n]) { st with reader := .idle } := by
    intro n s rest hreading
    cases hreading
  rcases hr : st.reader with _ | ⟨s, _ | next⟩
  · simp only [readStep, hr]
    split_ifs with hodd
    · rw [Option.toList_none, List.append_nil]
      exact h
    · refine h.of_read rfl ?_ (h.sound.concat_of_ne (by simp))
      rintro s rest ⟨⟩
      refine ⟨notes, [], rfl, by simp, ?_, fun _ hrests => (h.writer.of_rests hrests).2⟩
      rw [not_not, and_one_eq_zero_iff] at hodd
      exact (h.writer.of_rests (h.rests_of_even hs₀ hodd)).1
  · simp only [readStep, hr]
    split_ifs with hmoved
    · exact h.of_read rfl (hidle _) (h.sound.concat_of_ne (by simp))
    · rw [not_not] at hmoved
      obtain ⟨hs, heval⟩ := h.unmoved hs₀ htimely hr hmoved
      exact h.of_read rfl (hidle _) (h.sound.concat_accepted hs heval h.stamped)
  · simp only [readStep, hr, Option.toList_none, List.append_nil]
    refine ⟨h.writer, ?_, h.stamped, h.sound⟩
    rintro s' rest ⟨⟩
    exact h.reader s (.load next) hr

end Preservation

end Seqlock

end PalmaEos
