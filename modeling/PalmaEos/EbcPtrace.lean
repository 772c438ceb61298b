import Mathlib.Data.List.Forall2
import Mathlib.Data.List.Infix
import PalmaEos.EbcTrace

/-!
# `ebcptrace.c`

The second tracer seizes the threads of a running process and logs the ioctls of the EBC driver. It
is told of a stop at the entry of a syscall and of one at its exit, which look the same; which one
it is, it keeps in a table, with a flag that is turned at every stop. The table has 65536 entries,
and a thread has the one at its number modulo that.

The kernel chooses which thread stops next. A stop comes with what the tracer finds when it looks,
and with what the tracer cannot see: whether it is an entry.

## Main results

* `knows_iff` — the tracer tells entries from exits exactly if they alternate in every entry of the
  table
* `ptrace_log` — what its log has then
-/

namespace PalmaEos

namespace EbcPtrace

def SIGTRAP : ℕ := 5
def SIGSTOP : ℕ := 19
/-- `SIGTRAP | 0x80` -/
def SYSCALL_STOP : ℕ := 133
def AARCH64_NR_ioctl : ℕ := 29
def EBC_LO : ℕ := 0x7000
def EBC_HI : ℕ := 0x7300
def MAXTID : ℕ := 65536

/-- The registers that are looked at. -/
structure Regs where
  x0 : ℕ
  x1 : ℕ
  x2 : ℕ
  x8 : ℕ

/-- A stop that `waitpid` reports, and what the tracer finds then. -/
structure Stop where
  tid : ℕ
  /-- `WSTOPSIG(st)` -/
  sig : ℕ
  /-- It is a stop at the entry of a syscall. -/
  entry : Bool
  /-- What `read_regs` gives. -/
  regs : Option Regs
  /-- What `readlink` gives for the descriptor in `x0`. -/
  link : Option Bytes
  /-- The 40 bytes at `x2`, where they can be read. -/
  mem : Option Bytes

/-- A line of the log: the thread, the path, the request, and the words that are printed. -/
structure Line where
  tid : ℕ
  path : Bytes
  req : ℕ
  words : Option (List ℤ)
  deriving DecidableEq

/-- `fd_path`. -/
def fdPath (link : Option Bytes) : Bytes := (link.getD []).take 255

/-- The line for a syscall, if it is an ioctl of the range on a device of interest. -/
def ebcLine (stop : Stop) : Option Line :=
  match stop.regs with
  | none => none
  | some r =>
    let p := fdPath stop.link
    if r.x8 = AARCH64_NR_ioctl ∧ EBC_LO ≤ r.x1 ∧ r.x1 ≤ EBC_HI ∧
        (Text.encode "/dev/ebc".toList <:+: p ∨ Text.encode "/dev/dri".toList <:+: p) then
      let n := if r.x1 = 0x700c then 10 else 4
      let u := if r.x2 ≠ 0 then stop.mem else none
      some ⟨stop.tid, p, r.x1, u.map fun mem => (List.range n).map (EbcTrace.int32 mem)⟩
    else none

/-- The variables of the loop. -/
structure Tracer where
  inSyscall : ℕ → Bool
  hits : ℕ

def Tracer.start : Tracer := ⟨fun _ => false, 0⟩

/-- What `waitpid` may give. -/
inductive Event
  /-- Nothing has happened. -/
  | idle
  /-- A thread has exited, or was killed. -/
  | gone (tid : ℕ)
  | stopped (stop : Stop)

/-- What the tracer does about a stop: the line that it prints, if any, and the signal that it lets
the thread go on with. -/
structure Answer where
  line : Option Line
  tid : ℕ
  sig : ℕ

/-- One round of the loop in `main`. -/
def Tracer.step (s : Tracer) : Event → Tracer × Option Answer
  | .idle => (s, none)
  | .gone _ => (s, none)
  | .stopped stop =>
    if stop.sig = SYSCALL_STOP then
      let idx := stop.tid % MAXTID
      let entering := !s.inSyscall idx
      let line := if entering then ebcLine stop else none
      ({ inSyscall := Function.update s.inSyscall idx entering
         hits := s.hits + line.toList.length }, some ⟨line, stop.tid, 0⟩)
    else (s, some ⟨none, stop.tid, if stop.sig = SIGTRAP ∨ stop.sig = SIGSTOP then 0 else stop.sig⟩)

/-! ### Entries and exits -/

/-- The syscall stop that an event is. -/
def Event.syscallStop : Event → Option Stop
  | .stopped stop => if stop.sig = SYSCALL_STOP then some stop else none
  | _ => none

/-- What the syscall stops of the threads are that `p` chooses. -/
def phases (p : ℕ → Bool) (es : List Event) : List Bool :=
  (es.filterMap Event.syscallStop).filterMap fun stop =>
    if p stop.tid then some stop.entry else none

/-- The stops alternate, from this one on. -/
def Alternates : Bool → List Bool → Prop
  | _, [] => True
  | b, c :: l => c = b ∧ Alternates (!b) l

/-- The stops of a thread. -/
def phasesOf (tid : ℕ) : List Event → List Bool := phases fun t => t = tid

/-- The stops of the threads with the same entry in the table. -/
def phasesAt (idx : ℕ) : List Event → List Bool := phases fun t => t % MAXTID = idx

/-- The tracer takes a syscall stop for what it is. -/
def Knows (_ : List Answer) (s : Tracer) (e : Event) : Prop :=
  ∀ stop ∈ e.syscallStop, (!s.inSyscall (stop.tid % MAXTID)) = stop.entry

/-- The line that a stop comes with, when it is taken for what it is. -/
def Stop.line (stop : Stop) : Option Line := if stop.entry then ebcLine stop else none

def Event.line (e : Event) : Option Line := e.syscallStop.bind Stop.line

section Runs

variable {s : Tracer} {es : List Event} {e : Event} {stop : Stop} {p : ℕ → Bool}

theorem phases_cons_none (he : e.syscallStop = none) : phases p (e :: es) = phases p es := by
  rw [phases, List.filterMap_cons_none he, phases]

theorem phases_cons_some (he : e.syscallStop = some stop) :
    phases p (e :: es) = if p stop.tid then stop.entry :: phases p es else phases p es := by
  rw [phases, List.filterMap_cons_some he, List.filterMap_cons, phases]
  split_ifs <;> rfl

theorem syscallStop_eq_some (he : e.syscallStop = some stop) :
    e = .stopped stop ∧ stop.sig = SYSCALL_STOP := by
  cases e with
  | idle => exact absurd he (by simp [Event.syscallStop])
  | gone tid => exact absurd he (by simp [Event.syscallStop])
  | stopped stop' =>
    rw [Event.syscallStop] at he
    split_ifs at he with hsig
    obtain rfl := Option.some.inj he
    exact ⟨rfl, hsig⟩

/-- A syscall stop turns the flag of its entry, and is logged if that says that it is an entry. -/
theorem step_syscallStop (he : e.syscallStop = some stop) : s.step e =
    ({ inSyscall := Function.update s.inSyscall (stop.tid % MAXTID)
        (!s.inSyscall (stop.tid % MAXTID))
       hits := s.hits +
        (if !s.inSyscall (stop.tid % MAXTID) then ebcLine stop else none).toList.length },
      some ⟨if !s.inSyscall (stop.tid % MAXTID) then ebcLine stop else none, stop.tid, 0⟩) := by
  obtain ⟨rfl, hsig⟩ := syscallStop_eq_some he
  rw [Tracer.step, if_pos hsig]

/-- Nothing else is logged or changes the table. -/
theorem step_other (he : e.syscallStop = none) :
    (s.step e).1 = s ∧ ∀ a ∈ (s.step e).2, a.line = none := by
  cases e with
  | idle => exact ⟨rfl, fun a ha => absurd ha (Option.not_mem_none a)⟩
  | gone tid => exact ⟨rfl, fun a ha => absurd ha (Option.not_mem_none a)⟩
  | stopped stop =>
    rw [Event.syscallStop] at he
    split_ifs at he with hsig
    rw [Tracer.step, if_neg hsig]
    refine ⟨rfl, fun a ha => ?_⟩
    rw [← Option.mem_some_iff.mp ha]

/-- **The tracer knows** what every stop is, exactly if the stops alternate in every entry of the
table. -/
theorem knows_iff {outs : List Answer} : Along Tracer.step Knows outs s es ↔
    ∀ idx, Alternates (!s.inSyscall idx) (phasesAt idx es) := by
  induction es generalizing s outs with
  | nil => exact iff_of_true trivial fun _ => trivial
  | cons e es ih =>
    rw [Along, ih]
    cases he : e.syscallStop with
    | none =>
      have hknows : Knows outs s e := fun stop hstop => by simp [he] at hstop
      rw [and_iff_right hknows, (step_other he).1]
      exact forall_congr' fun idx => by rw [phasesAt, phases_cons_none he]
    | some stop =>
      have hknows : Knows outs s e ↔ (!s.inSyscall (stop.tid % MAXTID)) = stop.entry := by
        rw [Knows, he]
        simp
      have hphases : ∀ idx, phasesAt idx (e :: es) =
          if stop.tid % MAXTID = idx then stop.entry :: phasesAt idx es else phasesAt idx es := by
        intro idx
        rw [phasesAt, phases_cons_some he]
        simp only [decide_eq_true_eq]
      rw [hknows, step_syscallStop he]
      constructor
      · rintro ⟨hentry, hrest⟩ idx
        have hidx := hrest idx
        rw [hphases]
        split_ifs with heq
        · rw [← heq] at hidx ⊢
          dsimp only at hidx
          rw [Function.update_self] at hidx
          exact ⟨hentry.symm, hidx⟩
        · dsimp only at hidx
          rwa [Function.update_of_ne (Ne.symm heq)] at hidx
      · intro hall
        have hthis := hall (stop.tid % MAXTID)
        rw [hphases, if_pos rfl] at hthis
        refine ⟨hthis.1.symm, fun idx => ?_⟩
        have hidx := hall idx
        rw [hphases] at hidx
        dsimp only
        split_ifs at hidx with heq
        · rw [← heq, Function.update_self]
          exact hthis.2
        · rwa [Function.update_of_ne (Ne.symm heq)]

/-- The lines of a run. -/
def log (s : Tracer) (es : List Event) : List Line :=
  (outputs Tracer.step s es).filterMap Answer.line

/-- **The log**, where the tracer knows what every stop is. -/
theorem log_of_knows {outs : List Answer} (hknows : Along Tracer.step Knows outs s es) :
    log s es = es.filterMap Event.line ∧
      (after Tracer.step s es).hits = s.hits + (es.filterMap Event.line).length := by
  induction es generalizing s outs with
  | nil => exact ⟨rfl, rfl⟩
  | cons e es ih =>
    obtain ⟨hfirst, hrest⟩ := hknows
    obtain ⟨hlog, hhits⟩ := ih hrest
    have hlog' : log s (e :: es) =
        (s.step e).2.toList.filterMap Answer.line ++ es.filterMap Event.line := by
      rw [log, outputs, List.filterMap_append, ← hlog, log]
    rw [hlog', after, hhits]
    cases he : e.syscallStop with
    | none =>
      obtain ⟨hsame, hnone⟩ := step_other (s := s) he
      have hline : e.line = none := by rw [Event.line, he, Option.bind_none]
      have hempty : (s.step e).2.toList.filterMap Answer.line = [] :=
        List.filterMap_eq_nil_iff.mpr fun a ha => hnone a (Option.mem_toList.mp ha)
      rw [hsame, hempty, List.filterMap_cons_none hline]
      exact ⟨rfl, rfl⟩
    | some stop =>
      have hentry : (!s.inSyscall (stop.tid % MAXTID)) = stop.entry := hfirst stop he
      have hline : e.line = if stop.entry then ebcLine stop else none := by
        rw [Event.line, he, Option.bind_some, Stop.line]
      rw [step_syscallStop he, hentry, ← hline]
      cases hl : e.line with
      | none =>
        rw [List.filterMap_cons_none hl]
        exact ⟨rfl, rfl⟩
      | some line =>
        rw [List.filterMap_cons_some hl, List.length_cons]
        exact ⟨rfl, Nat.succ_add_eq_add_succ _ _⟩

/-- Stops that are chosen alike. -/
theorem phases_congr {q : ℕ → Bool}
    (h : ∀ stop ∈ es.filterMap Event.syscallStop, p stop.tid = q stop.tid) :
    phases p es = phases q es := by
  rw [phases, phases]
  exact List.filterMap_congr fun stop hstop => by rw [h stop hstop]

/-- Stops of which none is chosen. -/
theorem phases_eq_nil (h : ∀ stop ∈ es.filterMap Event.syscallStop, p stop.tid = false) :
    phases p es = [] := by
  rw [phases, List.filterMap_eq_nil_iff]
  intro stop hstop
  rw [h stop hstop, if_neg Bool.false_ne_true]

/-- No two threads have the same entry of the table. -/
def Apart (es : List Event) : Prop :=
  ∀ stop ∈ es.filterMap Event.syscallStop, ∀ stop' ∈ es.filterMap Event.syscallStop,
    stop.tid % MAXTID = stop'.tid % MAXTID → stop.tid = stop'.tid

/-- **Threads that stay apart** in the table: it is enough that the stops of each alternate. -/
theorem alternates_of_apart (hapart : Apart es) (hall : ∀ tid, Alternates true (phasesOf tid es))
    (idx : ℕ) : Alternates true (phasesAt idx es) := by
  by_cases hsome : ∃ stop ∈ es.filterMap Event.syscallStop, stop.tid % MAXTID = idx
  · obtain ⟨stop, hstop, rfl⟩ := hsome
    have hsame : phasesAt (stop.tid % MAXTID) es = phasesOf stop.tid es := by
      refine phases_congr fun stop' hstop' => ?_
      rw [decide_eq_decide]
      exact ⟨hapart stop' hstop' stop hstop, fun heq => by rw [heq]⟩
    rw [hsame]
    exact hall stop.tid
  · have hnone : phasesAt idx es = [] := by
      refine phases_eq_nil fun stop hstop => decide_eq_false fun heq => hsome ⟨stop, hstop, heq⟩
    rw [hnone]
    trivial

end Runs

/-! ### What the log is to have -/

/-- The text is in the path, or in its first 255 bytes if it is longer than that. -/
def Mentions (path : Bytes) (text : String) : Prop := Text.encode text.toList <:+: path.take 255

instance (path : Bytes) (text : String) : Decidable (Mentions path text) :=
  inferInstanceAs (Decidable (_ <:+: _))

/-- A thread enters an ioctl of the range on a descriptor whose path has one of the two names in it,
and its registers and the path can be read. -/
def Wanted (stop : Stop) : Prop :=
  stop.entry = true ∧ (∃ r ∈ stop.regs, r.x8 = AARCH64_NR_ioctl ∧ EBC_LO ≤ r.x1 ∧ r.x1 ≤ EBC_HI) ∧
    ∃ path ∈ stop.link, Mentions path "/dev/ebc" ∨ Mentions path "/dev/dri"

instance : DecidablePred Wanted := fun _ => inferInstanceAs (Decidable (_ ∧ _ ∧ _))

/-- **The line is that of the stop**: it has the thread, the path and the request, and of an
argument that can be read the first four words, or all ten for `SET_EBC_SEND_UPDATE`. -/
structure Traced (stop : Stop) (line : Line) : Prop where
  tid : line.tid = stop.tid
  path : ∃ path ∈ stop.link, line.path = path.take 255
  req : ∃ r ∈ stop.regs, line.req = r.x1
  unread : (∃ r ∈ stop.regs, r.x2 = 0) ∨ stop.mem = none → line.words = none
  read : ∀ r ∈ stop.regs, r.x2 ≠ 0 → ∀ mem ∈ stop.mem, ∃ words ∈ line.words,
    words.length = (if line.req = 0x700c then 10 else 4) ∧
      ∀ i < words.length, words[i]? = some (wrap32 (leAt 4 mem (4 * i)))

section Wanted

variable {stop : Stop} {line : Line}

/-- A path that mentions something is there. -/
theorem mentions_fdPath (stop : Stop) (text : String) (hne : Text.encode text.toList ≠ []) :
    Text.encode text.toList <:+: fdPath stop.link ↔ ∃ path ∈ stop.link, Mentions path text := by
  cases hlink : stop.link with
  | none =>
    refine iff_of_false (fun hin => ?_) (by simp)
    exact hne (List.eq_nil_of_infix_nil hin)
  | some path => simp [fdPath, Mentions]

/-- The line that is printed for a stop. -/
theorem Wanted.traced {r : Regs} (h : Wanted stop) (hregs : stop.regs = some r) :
    Traced stop ⟨stop.tid, fdPath stop.link, r.x1, (if r.x2 ≠ 0 then stop.mem else none).map
      fun mem => (List.range (if r.x1 = 0x700c then 10 else 4)).map (EbcTrace.int32 mem)⟩ := by
  obtain ⟨-, -, path, hpath, -⟩ := h
  have hlink : fdPath stop.link = path.take 255 := by
    rw [fdPath, Option.mem_def.mp hpath, Option.getD_some]
  have hr : ∀ r' ∈ stop.regs, r' = r := by
    intro r' hr'
    rw [hregs] at hr'
    exact (Option.some.inj hr').symm
  refine ⟨rfl, ⟨path, hpath, hlink⟩, ⟨r, hregs, rfl⟩, ?_, ?_⟩
  · rintro (⟨r', hr', hzero⟩ | hnone)
    · rw [hr r' hr'] at hzero
      rw [if_neg (not_not.mpr hzero), Option.map_none]
    · rw [hnone, ite_self, Option.map_none]
  · intro r' hr' hne mem hmem
    rw [hr r' hr'] at hne
    rw [if_pos hne, Option.mem_def.mp hmem, Option.map_some]
    refine ⟨_, rfl, by rw [List.length_map, List.length_range], fun i hi => ?_⟩
    rw [List.length_map, List.length_range] at hi
    rw [List.getElem?_map, List.getElem?_range hi]
    rfl

/-- **The line of a stop**: there is one exactly if it is wanted. -/
theorem line_spec (stop : Stop) : ¬ Wanted stop ∧ stop.line = none ∨
    Wanted stop ∧ ∃ line, stop.line = some line ∧ Traced stop line := by
  rw [Stop.line]
  cases hentry : stop.entry with
  | false => exact Or.inl ⟨fun hwanted => absurd (hentry.symm.trans hwanted.1) (by simp), rfl⟩
  | true =>
    rw [if_pos rfl, ebcLine]
    cases hregs : stop.regs with
    | none => exact Or.inl ⟨fun ⟨_, ⟨_, hr, _⟩, _⟩ => by simp [hregs] at hr, rfl⟩
    | some r =>
      have hebc := mentions_fdPath stop "/dev/ebc" (by decide)
      have hdri := mentions_fdPath stop "/dev/dri" (by decide)
      have hwanted : Wanted stop ↔ r.x8 = AARCH64_NR_ioctl ∧ EBC_LO ≤ r.x1 ∧ r.x1 ≤ EBC_HI ∧
          (Text.encode "/dev/ebc".toList <:+: fdPath stop.link ∨
            Text.encode "/dev/dri".toList <:+: fdPath stop.link) := by
        rw [hebc, hdri, Wanted, hregs, hentry]
        simp only [Option.mem_some_iff, true_and, exists_eq_left', and_or_left, exists_or,
          and_assoc]
      dsimp only
      by_cases h : Wanted stop
      · rw [if_pos (hwanted.mp h)]
        exact Or.inr ⟨h, _, rfl, h.traced hregs⟩
      · rw [if_neg (mt hwanted.mpr h)]
        exact Or.inl ⟨h, rfl⟩

/-- **The lines of the stops**, one for each that is wanted, in their order. -/
theorem forall₂_lines (es : List Event) : List.Forall₂ Traced
    ((es.filterMap Event.syscallStop).filter Wanted) (es.filterMap Event.line) := by
  have hlines : es.filterMap Event.line
      = (es.filterMap Event.syscallStop).filterMap Stop.line := by
    rw [List.filterMap_filterMap]
    rfl
  rw [hlines]
  induction es.filterMap Event.syscallStop with
  | nil => exact .nil
  | cons stop stops ih =>
    rcases line_spec stop with ⟨hnot, hnone⟩ | ⟨hwanted, line, hsome, htraced⟩
    · rwa [List.filter_cons_of_neg (by rwa [decide_eq_true_iff]), List.filterMap_cons_none hnone]
    · rw [List.filter_cons_of_pos (by rwa [decide_eq_true_iff]), List.filterMap_cons_some hsome]
      exact .cons htraced ih

end Wanted

/-- **What `ebcptrace` logs**, in whatever order the threads stop. It takes every syscall stop for
what it is exactly if entries and exits alternate, an entry first, among the stops of each residue
of the thread numbers modulo 65536. They do if the stops of each thread do and no two threads have
the same residue; a thread that ends in a syscall and whose number is given to another one breaks
it. And then the log has one line for each stop that is wanted, in their order, and counts them. -/
theorem ptrace_log (es : List Event) :
    ((∀ pre e post, es = pre ++ e :: post → ∀ stop ∈ e.syscallStop,
        (!(after Tracer.step .start pre).inSyscall (stop.tid % MAXTID)) = stop.entry) ↔
      ∀ idx, Alternates true (phasesAt idx es)) ∧
    (Apart es → (∀ tid, Alternates true (phasesOf tid es)) →
      ∀ idx, Alternates true (phasesAt idx es)) ∧
    ((∀ idx, Alternates true (phasesAt idx es)) →
      List.Forall₂ Traced ((es.filterMap Event.syscallStop).filter Wanted) (log .start es) ∧
        (after Tracer.step .start es).hits
          = ((es.filterMap Event.syscallStop).filter Wanted).length) := by
  have hknows : Along Tracer.step Knows [] .start es ↔ _ := knows_iff
  refine ⟨?_, fun hapart hall => alternates_of_apart hapart hall, fun hall => ?_⟩
  · exact along_iff.symm.trans hknows
  · obtain ⟨hlog, hhits⟩ := log_of_knows (hknows.mpr hall)
    have hlines := forall₂_lines es
    rw [hlog, hhits, hlines.length_eq]
    exact ⟨hlines, Nat.zero_add _⟩

/-- Two threads in an ioctl at once, and a signal. -/
def twoThreads : List Event :=
  let stop (tid sig : ℕ) (entry : Bool) : Event := .stopped ⟨tid, sig, entry,
    some ⟨7, 0x7001, 0, 29⟩, some (Text.encode "/dev/ebc".toList), none⟩
  [stop 100 SYSCALL_STOP true, stop 101 SYSCALL_STOP true, .idle, stop 100 17 false,
    stop 101 SYSCALL_STOP false, stop 100 SYSCALL_STOP false]

theorem ptrace_log_two : List.Forall₂ Traced
      ((twoThreads.filterMap Event.syscallStop).filter Wanted) (log .start twoThreads) ∧
    ((twoThreads.filterMap Event.syscallStop).filter Wanted).length = 2 := by
  have hapart : Apart twoThreads := by
    rw [Apart]
    decide +kernel
  have hthreads : ∀ tid, Alternates true (phasesOf tid twoThreads) := by
    intro tid
    by_cases h100 : tid = 100
    · have hphases : phasesOf tid twoThreads = [true, false] := by
        rw [h100]
        decide +kernel
      rw [hphases]
      exact ⟨rfl, rfl, trivial⟩
    · by_cases h101 : tid = 101
      · have hphases : phasesOf tid twoThreads = [true, false] := by
          rw [h101]
          decide +kernel
        rw [hphases]
        exact ⟨rfl, rfl, trivial⟩
      · have hnone : phasesOf tid twoThreads = [] := by
          have htids : ∀ stop ∈ twoThreads.filterMap Event.syscallStop,
              stop.tid = 100 ∨ stop.tid = 101 := by
            decide +kernel
          refine phases_eq_nil fun stop hstop => decide_eq_false ?_
          rintro rfl
          exact (htids stop hstop).elim h100 h101
        rw [hnone]
        trivial
  obtain ⟨-, halternates, hlog⟩ := ptrace_log twoThreads
  exact ⟨(hlog (halternates hapart hthreads)).1, by decide +kernel⟩

end EbcPtrace

end PalmaEos
