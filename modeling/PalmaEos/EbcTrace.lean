import PalmaEos.InitParms
import PalmaEos.Lib.Memo
import PalmaEos.Lib.Runs
import PalmaEos.Lib.Text

/-!
# `ebctrace.c`

The tracer is loaded into the vendor's display stack and interposes `ioctl`: it logs the calls that
go to `/dev/ebc` and to `/dev/dri/`, and forwards all of them. What a descriptor refers to is asked
of `/proc/self/fd` at the first call on its number only. Nothing tells the tracer that a descriptor
has been closed and its number given to another file, so from then on the number is taken for what
it was at first.

The kernel's descriptor table is part of the state, the descriptor of the log included, and it is
the events that choose the numbers. A path is what `readlink` gives for a descriptor, and holds no
zero byte. `dlsym` finds `ioctl`, and a write to an open descriptor succeeds.

The line that is logged for `SET_EBC_SEND_UPDATE` does not name a device; which one a reader takes
it to speak of is a parameter, `reading`.

## Main results

* `Remembers.step` — what the tracer remembers of a number
* `tracesExactly_iff` — when a trace is exact
-/

namespace PalmaEos

namespace EbcTrace

def LOGPATH : Bytes := Text.encode "/data/local/tmp/ebc_trace.log".toList

def MAXFD : ℤ := 1024

def DUMP_BYTES : ℕ := 48

/-- The devices that are traced. -/
inductive Device
  | ebc
  | dri
  deriving DecidableEq

/-- The values of `fdkind`: -1, 0, 1 and 2. -/
inductive Kind
  | unknown
  | uninteresting
  | ebc
  | dri
  deriving DecidableEq

/-- A line of the log. -/
inductive Line
  /-- `=== ebctrace attached, pid %d ===` -/
  | attached
  /-- `UPD rect=... -> rc=%d`, with the ten words of the update -/
  | upd (u : List ℤ) (rc : ℤ)
  /-- `[ebc] ioctl req=%#x (%d) fd=%d`, or `[dri]` -/
  | header (device : Device) (request fd : ℤ)
  /-- The lines of `dump_arg`: nothing but `(null)` without an argument. -/
  | dump (arg : Option Bytes)
  /-- `-> rc=%d` -/
  | returned (rc : ℤ)
  deriving DecidableEq

/-- What the tracer does: write a line to a file, or call the real `ioctl`. -/
inductive Effect
  | wrote (file : Bytes) (line : Line)
  | forwarded (fd request : ℤ) (arg : Option Bytes)
  deriving DecidableEq

/-- What the real `ioctl` returns, and what it leaves where the argument points. -/
structure Reply where
  rc : ℤ
  out : Bytes

/-- The tracer's static variables, and what the descriptors of the process refer to. -/
structure Tracer where
  /-- `real_ioctl` is set. -/
  real : Bool
  logfd : ℤ
  fdkind : ℕ → Kind
  files : ℕ → Option Bytes

/-- Before the library is initialised. Static memory is zero. -/
def Tracer.start (files : ℕ → Option Bytes) : Tracer := ⟨false, -1, fun _ => .uninteresting, files⟩

/-- What a descriptor refers to. -/
def Tracer.target (s : Tracer) (fd : ℤ) : Option Bytes :=
  if 0 ≤ fd then s.files fd.toNat else none

/-- `emit`. -/
def emit (line : Line) (s : Tracer) : List Effect :=
  ((s.target s.logfd).map fun file => Effect.wrote file line).toList

/-- `ebctrace_init`; `log` is the descriptor that opening the log gives, if it opens. -/
def ebctraceInit (log : Option ℕ) (s : Tracer) : Tracer × List Effect :=
  let s := { s with real := true, fdkind := fun _ => .unknown, logfd := -1 }
  match log with
  | some n =>
    let s := { s with logfd := n, files := Function.update s.files n (some LOGPATH) }
    (s, emit .attached s)
  | none => (s, [])

/-- `if (!real_ioctl) ebctrace_init();` -/
def attach (log : Option ℕ) (s : Tracer) : Tracer × List Effect :=
  if s.real then (s, []) else ebctraceInit log s

/-- `classify`, given what `readlink` finds. -/
def classify (target : Option Bytes) : Kind :=
  match target with
  | none => .uninteresting
  | some path =>
    let tgt := path.take 255
    if tgt = [] then .uninteresting
    else if tgt = Text.encode "/dev/ebc".toList then .ebc
    else if Text.encode "/dev/dri/".toList <+: tgt then .dri
    else .uninteresting

/-- The kind of a descriptor, looked up at most once. -/
def lookup (n : ℕ) (s : Tracer) : Kind × Tracer :=
  if s.fdkind n = .unknown then
    (classify (s.files n),
      { s with fdkind := Function.update s.fdkind n (classify (s.files n)) })
  else (s.fdkind n, s)

/-- Word `i` at an `int32_t *`. -/
def int32 (mem : Bytes) (i : ℕ) : ℤ := wrap32 (leAt 4 mem (4 * i))

/-- `dump_arg`. -/
def dumpArg (arg : Option Bytes) (s : Tracer) : List Effect :=
  emit (.dump (arg.map (·.take DUMP_BYTES))) s

/-- The rest of `ioctl`, with the kind of its descriptor at hand: forward the call, and log it if it
is of interest. -/
def forwardCall (kind : Kind) (fd request : ℤ) (arg : Option Bytes) (reply : Reply) (s : Tracer) :
    List Effect :=
  let forward := Effect.forwarded fd request arg
  if kind = .uninteresting then [forward]
  else
    match if request = 0x700c then arg else none with
    | some mem => forward :: emit (.upd ((List.range 10).map (int32 mem)) reply.rc) s
    | none =>
      let device := if kind = .ebc then .ebc else .dri
      emit (.header device request fd) s ++ dumpArg arg s ++
        forward :: (emit (.returned reply.rc) s ++ dumpArg (arg.map fun _ => reply.out) s)

/-- The interposed `ioctl`: the state it leaves, what it does, and what it returns. -/
def ioctl (fd request : ℤ) (arg : Option Bytes) (reply : Reply) (log : Option ℕ) (s : Tracer) :
    Tracer × List Effect × ℤ :=
  let (s, attached) := attach log s
  let (kind, s) := if 0 ≤ fd ∧ fd < MAXFD then lookup fd.toNat s else (.uninteresting, s)
  (s, attached ++ forwardCall kind fd request arg reply s, reply.rc)

/-! ### Runs -/

/-- What happens in the process. The kernel chooses the numbers. -/
inductive Event
  /-- The loader runs the constructor. -/
  | loaded (log : Option ℕ)
  | opened (fd : ℕ) (path : Bytes)
  | dup (old new : ℕ)
  | close (fd : ℕ)
  | ioctl (fd request : ℤ) (arg : Option Bytes) (reply : Reply) (log : Option ℕ)

/-- A call of `ioctl`, as it went. -/
structure Call where
  fd : ℤ
  request : ℤ
  arg : Option Bytes
  reply : Reply
  /-- What the descriptor refers to at the moment of the call. -/
  target : Option Bytes
  /-- What the tracer's own descriptor refers to. -/
  log : Option Bytes
  /-- The call found the tracer not yet initialised. -/
  attaches : Bool
  effects : List Effect
  returned : ℤ

/-- What is recorded of a run: when the tracer is initialised, and the calls. -/
inductive Note
  | loaded
  | called (c : Call)

/-- One event. -/
def Tracer.step (s : Tracer) : Event → Tracer × Option Note
  | .loaded log => ((ebctraceInit log s).1, some .loaded)
  | .opened fd path => ({ s with files := Function.update s.files fd (some path) }, none)
  | .dup old new =>
    match s.files old with
    | some path => ({ s with files := Function.update s.files new (some path) }, none)
    | none => (s, none)
  | .close fd => ({ s with files := Function.update s.files fd none }, none)
  | .ioctl fd request arg reply log =>
    let (s', effects, rc) := ioctl fd request arg reply log s
    (s', some (.called ⟨fd, request, arg, reply, s'.target fd, s'.target s'.logfd, !s.real, effects,
      rc⟩))

/-! ### Exact traces -/

/-- The device that a path names: `/dev/ebc`, or a node under `/dev/dri/`. -/
def device : Option Bytes → Option Device
  | none => none
  | some path =>
    if path = Text.encode "/dev/ebc".toList then some .ebc
    else if Text.encode "/dev/dri/".toList <+: path then some .dri
    else none

/-- What a line in the log says that a call has been made to. -/
def Effect.label (reading : Option Device) : Effect → Option (Option Device)
  | .wrote file (.upd _ _) => if file = LOGPATH then some reading else none
  | .wrote file (.header device _ _) => if file = LOGPATH then some (some device) else none
  | _ => none

def Effect.isForwarded : Effect → Bool
  | .forwarded _ _ _ => true
  | .wrote _ _ => false

/-- What the log says of a call. -/
def Call.labels (reading : Option Device) (c : Call) : List (Option Device) :=
  c.effects.filterMap (Effect.label reading)

/-- The call is logged exactly when its descriptor refers to one of the devices, under that device,
and it is forwarded once, as it came, with its result returned. -/
structure Traced (reading : Option Device) (c : Call) : Prop where
  logged : c.labels reading ≠ [] ↔ device c.target ≠ none
  labelled : ∀ l ∈ c.labels reading, l = device c.target
  forwarded : c.effects.filter Effect.isForwarded = [.forwarded c.fd c.request c.arg]
  returned : c.returned = c.reply.rc

/-- Every call of the process is traced. -/
def TracesExactly (reading : Option Device) (files : ℕ → Option Bytes) (es : List Event) : Prop :=
  ∀ c, Note.called c ∈ outputs Tracer.step (.start files) es → Traced reading c

/-! ### What the tracer remembers -/

/-- The calls as uses of descriptor numbers. -/
def uses (notes : List Note) : List (Memo.Op ℤ (Option Device)) :=
  notes.flatMap fun
    | .loaded => [.reset]
    | .called c => (if c.attaches then [.reset] else []) ++ [.use c.fd (device c.target)]

/-- The device that a number referred to at the first call on it since the tracer was
initialised. -/
def firstDevice (notes : List Note) (fd : ℤ) : Option Device := (Memo.firstUse (uses notes) fd).join

/-- The value of `fdkind` for what was found of a number. -/
def Kind.of : Option (Option Device) → Kind
  | none => .unknown
  | some none => .uninteresting
  | some (some .ebc) => .ebc
  | some (some .dri) => .dri

/-- **The condition.** A call on a number that refers to none of the devices now did so at the first
call on that number as well, unless the log is lost anyway; a call on a device finds the log in
place, and the number referred to that device at the first call on it. An update is not labelled, so
for it any device will do at the first call, if readers take it to speak of the right one now. -/
def Traceable (reading : Option Device) (notes : List Note) (c : Call) : Prop :=
  match device c.target with
  | none => ¬ (0 ≤ c.fd ∧ c.fd < MAXFD) ∨ firstDevice (notes ++ [.called c]) c.fd = none ∨
      c.log ≠ some LOGPATH
  | some d => c.fd < MAXFD ∧ c.log = some LOGPATH ∧
      if c.request = 0x700c ∧ c.arg ≠ none then
        firstDevice (notes ++ [.called c]) c.fd ≠ none ∧ reading = some d
      else firstDevice (notes ++ [.called c]) c.fd = some d

/-- `fdkind` holds what the first calls found. -/
def Remembers (notes : List Note) (s : Tracer) : Prop :=
  s.real = true → ∀ n : ℕ, (n : ℤ) < MAXFD → s.fdkind n = Kind.of (Memo.table (uses notes) n)

/-- A path cut off at 255 bytes is of the same kind. -/
theorem classify_eq (target : Option Bytes) : classify target = Kind.of (some (device target)) := by
  cases target with
  | none => rfl
  | some path =>
    have hebc : path.take 255 = Text.encode "/dev/ebc".toList ↔
        path = Text.encode "/dev/ebc".toList := by
      constructor
      · intro h
        have hlen := congrArg List.length h
        rw [List.length_take, show (Text.encode "/dev/ebc".toList).length = 8 by decide] at hlen
        rwa [List.take_of_length_le (by omega)] at h
      · rintro rfl
        decide
    have hdri : Text.encode "/dev/dri/".toList <+: path.take 255 ↔
        Text.encode "/dev/dri/".toList <+: path := by
      rw [List.prefix_take_iff]
      exact and_iff_left (by decide)
    simp only [classify, device, hebc, hdri]
    split_ifs with hnil h₁ h₂
    · rw [h₁] at hnil
      exact absurd hnil (by decide)
    · rw [List.take_eq_nil_iff] at hnil
      rw [hnil.resolve_left (by decide)] at h₂
      exact absurd h₂ (by decide)
    all_goals rfl

section Calls

variable {kind : Kind} {fd request : ℤ} {arg : Option Bytes} {reply : Reply} {s : Tracer}
  {reading : Option Device}

/-- What a line says, when it reaches the log. -/
theorem labels_emit (line : Line) : (emit line s).filterMap (Effect.label reading)
    = if s.target s.logfd = some LOGPATH then ((Effect.wrote LOGPATH line).label reading).toList
      else [] := by
  rw [emit]
  cases s.target s.logfd with
  | none => rfl
  | some file =>
    by_cases hfile : file = LOGPATH
    · rw [hfile, if_pos rfl]
      cases h : (Effect.wrote LOGPATH line).label reading with
      | none => exact List.filterMap_cons_none h
      | some l => exact List.filterMap_cons_some h
    · rw [if_neg (by simpa using hfile)]
      refine List.filterMap_cons_none ?_
      cases line with
      | upd u rc => exact if_neg hfile
      | header d request fd => exact if_neg hfile
      | attached | dump arg | returned rc => rfl

theorem labels_dumpArg : (dumpArg arg s).filterMap (Effect.label reading) = [] := by
  rw [dumpArg, labels_emit]
  exact ite_self _

theorem forwarded_emit (line : Line) : (emit line s).filter Effect.isForwarded = [] := by
  rw [emit]
  cases s.target s.logfd with
  | none => rfl
  | some file => rfl

/-- **What the log says of a call**: nothing, or one line. -/
theorem labels_forwardCall :
    (forwardCall kind fd request arg reply s).filterMap (Effect.label reading)
    = if kind = .uninteresting ∨ s.target s.logfd ≠ some LOGPATH then []
      else [if request = 0x700c ∧ arg ≠ none then reading
        else some (if kind = .ebc then .ebc else .dri)] := by
  have hforward : ∀ l, (Effect.forwarded fd request arg :: l).filterMap (Effect.label reading)
      = l.filterMap (Effect.label reading) := fun l => List.filterMap_cons_none rfl
  rw [forwardCall]
  by_cases hkind : kind = .uninteresting
  · rw [if_pos hkind, if_pos (Or.inl hkind), hforward, List.filterMap_nil]
  simp only [hkind, if_false, false_or]
  by_cases hupd : request = 0x700c ∧ arg ≠ none
  · obtain ⟨mem, rfl⟩ := Option.ne_none_iff_exists'.mp hupd.2
    simp only [if_pos hupd.1, hforward, labels_emit, if_pos hupd]
    rw [ite_not]
    exact if_congr Iff.rfl rfl rfl
  · have hnone : (if request = 0x700c then arg else none) = none := by
      split_ifs with h
      · exact not_not.mp fun harg => hupd ⟨h, harg⟩
      · rfl
    have hquiet : (emit (.returned reply.rc) s).filterMap (Effect.label reading) = [] := by
      rw [labels_emit]
      exact ite_self _
    simp only [hnone, List.filterMap_append, hforward, labels_dumpArg, hquiet, List.append_nil,
      labels_emit, if_neg hupd]
    rw [ite_not]
    exact if_congr Iff.rfl rfl rfl

/-- **Each call is forwarded once**, as it came. -/
theorem forwarded_forwardCall :
    (forwardCall kind fd request arg reply s).filter Effect.isForwarded
      = [.forwarded fd request arg] := by
  have hforward : ∀ l : List Effect, l.filter Effect.isForwarded = [] →
      (Effect.forwarded fd request arg :: l).filter Effect.isForwarded
        = [.forwarded fd request arg] := fun l hl => by
    rw [List.filter_cons_of_pos rfl, hl]
  rw [forwardCall]
  by_cases hkind : kind = .uninteresting
  · rw [if_pos hkind, hforward [] rfl]
  simp only [if_neg hkind]
  cases if request = 0x700c then arg else none with
  | some mem => exact hforward _ (forwarded_emit _)
  | none =>
    simp only [List.filter_append, forwarded_emit, dumpArg, List.nil_append]
    refine hforward _ ?_
    rw [List.filter_append, forwarded_emit, forwarded_emit, List.nil_append]

end Calls

/-! ### Runs of the tracer -/

section Runs

variable {notes : List Note} {s : Tracer}

/-- The uses up to that point. -/
def attachUses (notes : List Note) (s : Tracer) : List (Memo.Op ℤ (Option Device)) :=
  uses notes ++ if !s.real then [.reset] else []

theorem uses_called {c : Call} (h : c.attaches = !s.real) : uses (notes ++ [.called c])
    = attachUses notes s ++ [.use c.fd (device c.target)] := by
  rw [uses, List.flatMap_append, List.flatMap_singleton, ← uses, attachUses, List.append_assoc]
  dsimp only
  rw [h]

theorem attach_quiet (reading : Option Device) (log : Option ℕ) :
    (attach log s).2.filterMap (Effect.label reading) = [] ∧
      (attach log s).2.filter Effect.isForwarded = [] := by
  rw [attach]
  split_ifs with h
  · exact ⟨rfl, rfl⟩
  · cases log with
    | none => exact ⟨rfl, rfl⟩
    | some n => exact ⟨by rw [ebctraceInit, labels_emit]; exact ite_self _, forwarded_emit _⟩

theorem attach_remembers (h : Remembers notes s) (log : Option ℕ) (n : ℕ) (hn : (n : ℤ) < MAXFD) :
    (attach log s).1.fdkind n = Kind.of (Memo.table (attachUses notes s) n) := by
  rw [attach, attachUses]
  cases hreal : s.real with
  | true =>
    simp only [if_true, Bool.not_true, Bool.false_eq_true, if_false, List.append_nil]
    exact h hreal n hn
  | false =>
    simp only [Bool.false_eq_true, if_false, Bool.not_false, if_true, Memo.table_reset]
    cases log with
    | none => rfl
    | some n => rfl

theorem lookup_fst (n : ℕ) (s : Tracer) : (lookup n s).1 = (lookup n s).2.fdkind n := by
  rw [lookup]
  split_ifs with h
  · dsimp only
    rw [Function.update_self]
  · rfl

/-- A lookup is a use of the number, and changes nothing else. -/
theorem lookup_remembers {ops : List (Memo.Op ℤ (Option Device))}
    (h : ∀ n : ℕ, (n : ℤ) < MAXFD → s.fdkind n = Kind.of (Memo.table ops (n : ℤ)))
    (m n : ℕ) (hn : (n : ℤ) < MAXFD) : (lookup m s).2.fdkind n
      = Kind.of (Memo.table (ops ++ [Memo.Op.use (m : ℤ) (device (s.files m))]) (n : ℤ)) := by
  rw [Memo.table_use, lookup]
  have hunknown : ∀ found : Option (Option Device), Kind.of found = .unknown ↔ found = none := by
    intro found
    rcases found with _ | _ | _ | _ <;> simp [Kind.of]
  by_cases hnm : n = m
  · subst hnm
    rw [Function.update_self, h n hn]
    simp only [hunknown]
    cases hfound : Memo.table ops n with
    | none =>
      rw [if_pos rfl, Option.none_or, ← classify_eq]
      dsimp only
      rw [Function.update_self]
    | some d =>
      rw [if_neg (by simp), Option.some_or, ← hfound]
      exact h n hn
  · rw [Function.update_of_ne (by exact_mod_cast hnm)]
    split_ifs with hm
    · dsimp only
      rw [Function.update_of_ne hnm, h n hn]
    · exact h n hn

theorem lookup_files (n : ℕ) (s : Tracer) : (lookup n s).2.files = s.files := by
  rw [lookup]
  split_ifs with h
  · rfl
  · rfl

variable {fd request : ℤ} {arg : Option Bytes} {reply : Reply} {log : Option ℕ}

/-- What a call leaves in `fdkind`. -/
theorem ioctl_remembers (h : Remembers notes s) (n : ℕ) (hn : (n : ℤ) < MAXFD) :
    (ioctl fd request arg reply log s).1.fdkind n
      = Kind.of (Memo.table (attachUses notes s ++
          [Memo.Op.use fd (device ((ioctl fd request arg reply log s).1.target fd))]) (n : ℤ)) := by
  have hattach := attach_remembers h log
  rw [ioctl]
  dsimp only
  split_ifs with hfd
  · obtain ⟨m, rfl⟩ := Int.eq_ofNat_of_zero_le hfd.1
    rw [Int.toNat_natCast, lookup_remembers hattach m n hn, Tracer.target, if_pos hfd.1,
      lookup_files, Int.toNat_natCast]
  · have hne : (n : ℤ) ≠ fd := by omega
    rw [hattach n hn, Memo.table_use, Function.update_of_ne hne]

/-- **Every event keeps what is remembered.** -/
theorem Remembers.step (h : Remembers notes s) (e : Event) :
    Remembers (notes ++ (s.step e).2.toList) (s.step e).1 := by
  intro hreal n hn
  cases e with
  | loaded log =>
    rw [Tracer.step, Option.toList_some, uses, List.flatMap_append, List.flatMap_singleton,
      Memo.table_reset]
    cases log with
    | none => rfl
    | some fd => rfl
  | opened fd path =>
    rw [Tracer.step, Option.toList_none, List.append_nil]
    exact h hreal n hn
  | dup old new =>
    rw [Tracer.step] at hreal ⊢
    cases hold : s.files old with
    | none =>
      simp only [hold, Option.toList_none, List.append_nil] at hreal ⊢
      exact h hreal n hn
    | some path =>
      simp only [hold, Option.toList_none, List.append_nil] at hreal ⊢
      exact h hreal n hn
  | close fd =>
    rw [Tracer.step, Option.toList_none, List.append_nil]
    exact h hreal n hn
  | ioctl fd request arg reply log =>
    rw [Tracer.step, Option.toList_some, uses_called rfl]
    exact ioctl_remembers h n hn

/-- What a call does, from what is left in `fdkind`. -/
theorem ioctl_effects (fd request : ℤ) (arg : Option Bytes) (reply : Reply) (log : Option ℕ)
    (s : Tracer) : (ioctl fd request arg reply log s).2.1 = (attach log s).2 ++ forwardCall
      (if 0 ≤ fd ∧ fd < MAXFD then (ioctl fd request arg reply log s).1.fdkind fd.toNat
        else .uninteresting) fd request arg reply (ioctl fd request arg reply log s).1 := by
  rw [ioctl]
  dsimp only
  split_ifs with hfd
  · rw [lookup_fst]
  · rfl

variable {c : Call}

/-- The kind that a call goes by. -/
def Call.kind (notes : List Note) (c : Call) : Kind :=
  if 0 ≤ c.fd ∧ c.fd < MAXFD then Kind.of (some (firstDevice (notes ++ [.called c]) c.fd))
  else .uninteresting

/-- **What is recorded of a call**: what it logs, and that it is forwarded. -/
theorem step_called (reading : Option Device) (h : Remembers notes s) {e : Event}
    (hc : (s.step e).2 = some (.called c)) :
    c.labels reading = (if c.kind notes = .uninteresting ∨ c.log ≠ some LOGPATH then []
      else [if c.request = 0x700c ∧ c.arg ≠ none then reading
        else some (if c.kind notes = .ebc then .ebc else .dri)]) ∧
    c.effects.filter Effect.isForwarded = [.forwarded c.fd c.request c.arg] ∧
    c.returned = c.reply.rc ∧ (c.fd < 0 → c.target = none) := by
  cases e with
  | loaded log => simp [Tracer.step] at hc
  | opened fd path => simp [Tracer.step] at hc
  | dup old new =>
    rw [Tracer.step] at hc
    cases hold : s.files old with
    | none => simp [hold] at hc
    | some path => simp [hold] at hc
  | close fd => simp [Tracer.step] at hc
  | ioctl fd request arg reply log =>
    rw [Tracer.step] at hc
    have hcall := Note.called.inj (Option.some.inj hc)
    have huses : uses (notes ++ [.called c])
        = attachUses notes s ++
          [.use fd (device ((ioctl fd request arg reply log s).1.target fd))] := by
      rw [uses_called (by rw [← hcall]), ← hcall]
    have hkind : c.kind notes = if 0 ≤ fd ∧ fd < MAXFD then
        (ioctl fd request arg reply log s).1.fdkind fd.toNat else .uninteresting := by
      rw [Call.kind, ← hcall]
      dsimp only
      split_ifs with hfd
      · obtain ⟨m, rfl⟩ := Int.eq_ofNat_of_zero_le hfd.1
        rw [Int.toNat_natCast, ioctl_remembers h m hfd.2, hcall, ← huses, Memo.table_eq_firstUse,
          firstDevice, huses, Memo.firstUse_use, Option.join_some]
      · rfl
    have heffects := ioctl_effects fd request arg reply log s
    rw [← hkind] at heffects
    obtain ⟨hquiet, hnone⟩ := attach_quiet (s := s) reading log
    subst hcall
    refine ⟨?_, ?_, rfl, fun hneg => ?_⟩
    · have hlabels := congrArg (List.filterMap (Effect.label reading)) heffects
      rw [List.filterMap_append, hquiet, List.nil_append, labels_forwardCall] at hlabels
      exact hlabels
    · dsimp only
      rw [heffects, List.filter_append, hnone, List.nil_append, forwarded_forwardCall]
    · exact if_neg (by simpa using hneg)

/-- **One call is traced exactly where the condition holds.** -/
theorem traced_iff {reading : Option Device} (h : Remembers notes s) {e : Event}
    (hc : (s.step e).2 = some (.called c)) :
    Traced reading c ↔ Traceable reading notes c := by
  obtain ⟨hlabels, hforwarded, hreturned, htarget⟩ := step_called reading h hc
  have hiff : Traced reading c ↔ (c.labels reading ≠ [] ↔ device c.target ≠ none) ∧
      ∀ l ∈ c.labels reading, l = device c.target :=
    ⟨fun ht => ⟨ht.logged, ht.labelled⟩, fun ht => ⟨ht.1, ht.2, hforwarded, hreturned⟩⟩
  rw [hiff, hlabels, Traceable, Call.kind]
  generalize firstDevice (notes ++ [.called c]) c.fd = first
  cases hdevice : device c.target with
  | none =>
    dsimp only
    by_cases hfd : 0 ≤ c.fd ∧ c.fd < MAXFD
    · rcases first with _ | _ | _ <;> by_cases hlog : c.log = some LOGPATH <;>
        simp [hfd, hlog, Kind.of]
    · simp [hfd]
  | some d =>
    have hfd : 0 ≤ c.fd := by
      by_contra hneg
      rw [htarget (not_le.mp hneg)] at hdevice
      exact absurd hdevice (by simp [device])
    dsimp only
    by_cases hlt : c.fd < MAXFD
    · by_cases hlog : c.log = some LOGPATH
      · by_cases hupd : c.request = 0x700c ∧ c.arg ≠ none
        · rcases first with _ | _ | _ <;> simp [hfd, hlt, hlog, hupd, Kind.of]
        · rcases first with _ | _ | _ <;> simp [hfd, hlt, hlog, hupd, Kind.of]
      · simp [hlog]
    · simp [hlt]

/-- **When a trace is exact**: exactly when every call of the run meets the condition. -/
theorem tracesExactly_iff (reading : Option Device) (files : ℕ → Option Bytes) (es : List Event) :
    TracesExactly reading files es ↔ Along Tracer.step
      (fun notes s e => ∀ c, (s.step e).2 = some (.called c) → Traceable reading notes c) []
      (.start files) es := by
  have hcalls : TracesExactly reading files es ↔
      ∀ o ∈ outputs Tracer.step (.start files) es, ∀ c, o = .called c → Traced reading c :=
    ⟨fun h o ho c hc => h c (hc ▸ ho), fun h c hc => h _ hc c rfl⟩
  have hstart : Remembers [] (.start files) := nofun
  rw [hcalls, forall_outputs_iff]
  refine along_congr (fun notes s e h => h.step e) (fun notes s e h => ?_) hstart
  constructor
  · intro hall c hc
    exact (traced_iff h hc).mp (hall _ hc c rfl)
  · rintro hall o ho c rfl
    exact (traced_iff h ho).mpr (hall c ho)

end Runs

/-- Descriptor 4 is `/dev/null` at the first call on it, and `/dev/ebc` at the second. -/
def reusedEvents : List Event :=
  [.loaded (some 3), .opened 4 (Text.encode "/dev/null".toList), .ioctl 4 0x5401 none ⟨-1, []⟩ none,
    .close 4, .opened 4 (Text.encode "/dev/ebc".toList), .ioctl 4 0x7022 none ⟨0, []⟩ none]

/-- The second call is forwarded, and not logged. -/
def missedCall : Call where
  fd := 4
  request := 0x7022
  arg := none
  reply := ⟨0, []⟩
  target := some (Text.encode "/dev/ebc".toList)
  log := some LOGPATH
  attaches := false
  effects := [.forwarded 4 0x7022 none]
  returned := 0

theorem not_tracesExactly_reused : ¬ TracesExactly (some .ebc) (fun _ => none) reusedEvents := by
  intro h
  have hlast : (outputs Tracer.step (.start fun _ => none) reusedEvents).getLast?
      = some (.called missedCall) := rfl
  have htraced := h missedCall (List.mem_of_getLast? hlast)
  exact htraced.logged.mpr (by decide) rfl

end EbcTrace

end PalmaEos
