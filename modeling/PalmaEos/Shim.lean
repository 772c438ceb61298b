import PalmaEos.SubmittedRects

/-!
# The composer shim

`epdcshim.c` interposes two functions of libdrm. `drmModeAtomicAddProperty` records the objects of
the request being assembled, and `drmModeAtomicCommit` adds the update rectangles to a real commit
when something has changed and the last injection is long enough ago. A second thread sends a
settle pass when the screen has been quiet.

The state of the library is `Shim`. What a call meets outside it — system properties, the damage
file and page, the clock, the DRM driver — comes with the call, as `Env`. A commit that injects
returns the `Injection`; the shim forwards every call to libdrm, so that only what it adds is
recorded.

## Main results

* `drmModeAtomicCommit_cases` — a commit injects when it is real and enabled, the change detector
  fires and it is not throttled; otherwise it adds nothing
* `prepare_frame`, `inject_frame` — what the steps of a commit leave alone
-/

namespace PalmaEos

def RECHECK : ℕ := 30
def MAX_OBJ : ℕ := 32

/-! ### The surroundings -/

/-- Which of the symbols that may be missing `resolve` has found. -/
structure Libs where
  getObjProps : Bool
  getProp : Bool
  clock : Bool
  open_ : Bool
  mmap : Bool
  ioctl : Bool
  pthreadCreate : Bool

/-- What `drmModeGetProperty` returns: `prop_id` and `name`. -/
structure PropRes where
  id : UInt32
  name : String

/-- The properties of an object as a plane: none when it is not a plane, and without a result
where `drmModeGetProperty` fails. -/
abbrev Driver := UInt32 → Option (List (Option PropRes))

/-- What `attach_damage` meets when it tries. -/
inductive DamageFile
  /-- `open` fails. -/
  | absent
  /-- `mmap` fails. -/
  | unmappable
  /-- The magic or the version is wrong. -/
  | mismatched
  | valid
  deriving DecidableEq

/-- What a commit meets outside the shim. -/
structure Env where
  /-- The tunables that the system properties give. -/
  props : Tunables
  file : DamageFile
  views : Fin 4 → View
  /-- `CLOCK_MONOTONIC` in milliseconds. -/
  clock : ℤ
  driver : Driver
  /-- `pthread_create` succeeds. -/
  threadStarts : Bool

/-- All symbols are there. -/
def Libs.all : Libs := ⟨true, true, true, true, true, true, true⟩

/-- A commit without a damage file and without planes. -/
def Env.bare (props : Tunables) (clock : ℤ) : Env where
  props := props
  file := .absent
  views := fun _ => ⟨1, 0, 0, fun _ => panel, 1⟩
  clock := clock
  driver := fun _ => none
  threadStarts := true

/-! ### The state -/

/-- An entry of the property cache; a property that the object does not have is 0. -/
structure CacheEntry where
  obj : UInt32
  parmsProp : UInt32
  cntProp : UInt32
  deriving DecidableEq

/-- The static variables of the shim. -/
structure Shim where
  tun : Tunables
  commitsSinceRecheck : ℕ
  lastInjectMs : ℤ
  updatesSinceFull : ℤ
  /-- `g_parms` -/
  parms : Fin 8 → Upd
  /-- `g_dmg` is set. -/
  attached : Bool
  dmgTried : ℕ
  /-- Descriptors of the damage file that were opened and not closed. -/
  dmgFds : ℕ
  /-- Mappings of the damage file. -/
  dmgMaps : ℕ
  lastDmgSeq : UInt32
  /-- `c_obj`, `c_parms_prop` and `c_cnt_prop` -/
  cache : List CacheEntry
  /-- `pend` and `pend_fb` -/
  pend : List (UInt32 × UInt32)
  fbidProp : UInt32
  lastFbSig : UInt32
  settlePending : Bool
  /-- `started` of `start_settle_thread` -/
  settleStarted : Bool
  settleRunning : Bool
  /-- `marker` of `settle_now` -/
  settleMarker : ℤ

/-- The shim when the library is loaded. -/
def Shim.init : Shim where
  tun := Tunables.init
  commitsSinceRecheck := RECHECK
  lastInjectMs := 0
  updatesSinceFull := 0
  parms := zeroParms
  attached := false
  dmgTried := RECHECK
  dmgFds := 0
  dmgMaps := 0
  lastDmgSeq := 0
  cache := []
  pend := []
  fbidProp := 0
  lastFbSig := 0
  settlePending := false
  settleStarted := false
  settleRunning := false
  settleMarker := 0

/-- `n_pend = 0` -/
def Shim.clearPend (s : Shim) : Shim := { s with pend := [] }

/-! ### Assembling a request -/

/-- The slot of an object: its own when it has one, else a new one while there is room. -/
def recordObject (pend : List (UInt32 × UInt32)) (obj : UInt32) : List (UInt32 × UInt32) :=
  if pend.any fun p => p.1 = obj then pend
  else if pend.length < MAX_OBJ then pend ++ [(obj, 0)]
  else pend

/-- Set the framebuffer of the object's slot. -/
def recordFb (pend : List (UInt32 × UInt32)) (obj fb : UInt32) : List (UInt32 × UInt32) :=
  pend.map fun p => if p.1 = obj then (p.1, fb) else p

/-- `drmModeAtomicAddProperty`. -/
def drmModeAtomicAddProperty (obj prop : UInt32) (value : UInt64) (s : Shim) : Shim :=
  let pend := recordObject s.pend obj
  { s with
    pend := if s.fbidProp ≠ 0 ∧ prop = s.fbidProp then recordFb pend obj value.toUInt32 else pend }

/-! ### The steps of a commit -/

/-- `refresh_tunables`. -/
def refreshTunables (props : Tunables) (s : Shim) : Shim :=
  if s.commitsSinceRecheck + 1 < RECHECK then
    { s with commitsSinceRecheck := s.commitsSinceRecheck + 1 }
  else { s with commitsSinceRecheck := 0, tun := props }

/-- `attach_damage`. -/
def attachDamage (libs : Libs) (file : DamageFile) (s : Shim) : Shim :=
  if s.attached then s
  else if s.dmgTried + 1 < RECHECK then { s with dmgTried := s.dmgTried + 1 }
  else
    let s := { s with dmgTried := 0 }
    if ! libs.open_ || ! libs.mmap then s
    else match file with
      | .absent => s
      | .unmappable => { s with dmgFds := s.dmgFds + 1 }
      | .mismatched => { s with dmgFds := s.dmgFds + 1, dmgMaps := s.dmgMaps + 1 }
      | .valid => { s with dmgFds := s.dmgFds + 1, dmgMaps := s.dmgMaps + 1, attached := true }

/-- `now_ms`. -/
def nowMs (libs : Libs) (clock : ℤ) : ℤ := if libs.clock then clock else 0

/-- The framebuffer signature of the recorded objects. -/
def fbSig (pend : List (UInt32 × UInt32)) : UInt32 :=
  pend.foldl (fun sig p => sig * 31 + p.1 * 131 + p.2) 0

/-- The loop of `lookup` over the properties of a plane: the cache entry, and `g_fbid_prop`. -/
def scanProps : List (Option PropRes) → CacheEntry × UInt32 → CacheEntry × UInt32
  | [], r => r
  | none :: props, r => scanProps props r
  | some p :: props, (c, fbid) =>
    let fbid := if p.name = "FB_ID" then p.id else fbid
    if p.name = "EPDC_UPDATE_PARMS_ADDR" then scanProps props ({ c with parmsProp := p.id }, fbid)
    else if p.name = "EPDC_UPDATE_CNT" then scanProps props ({ c with cntProp := p.id }, fbid)
    else scanProps props (c, fbid)

/-- `lookup`: the state after it, and the cache entry unless there is no room for one. -/
def lookup (libs : Libs) (driver : Driver) (obj : UInt32) (s : Shim) : Shim × Option CacheEntry :=
  match s.cache.find? fun c => c.obj = obj with
  | some c => (s, some c)
  | none =>
    if MAX_OBJ ≤ s.cache.length then (s, none)
    else if ! libs.getObjProps || ! libs.getProp then (s, none)
    else match driver obj with
      | none => ({ s with cache := s.cache ++ [⟨obj, 0, 0⟩] }, some ⟨obj, 0, 0⟩)
      | some props =>
        let (c, fbid) := scanProps props (⟨obj, 0, 0⟩, s.fbidProp)
        ({ s with cache := s.cache ++ [c], fbidProp := fbid }, some c)

/-- The value of a property that the shim adds: the address of `g_parms`, or a number. -/
inductive AddValue
  | parmsAddr
  | count (n : ℤ)
  deriving DecidableEq

/-- A property that the shim adds to the request. -/
structure Add where
  obj : UInt32
  prop : UInt32
  value : AddValue
  deriving DecidableEq

/-- The loop over the recorded objects that adds the two EPDC properties to the planes. -/
def addParms (libs : Libs) (driver : Driver) (nRect : ℤ) :
    List (UInt32 × UInt32) → Shim → Shim × List Add
  | [], s => (s, [])
  | (obj, _) :: pend, s =>
    match lookup libs driver obj s with
    | (s, none) => addParms libs driver nRect pend s
    | (s, some c) =>
      let (s', adds) := addParms libs driver nRect pend s
      if c.parmsProp = 0 ∨ c.cntProp = 0 then (s', adds)
      else (s', ⟨obj, c.parmsProp, .parmsAddr⟩ :: ⟨obj, c.cntProp, .count nRect⟩ :: adds)

/-- `start_settle_thread`. -/
def startSettleThread (libs : Libs) (threadStarts : Bool) (s : Shim) : Shim :=
  if s.settleStarted || ! libs.pthreadCreate then s
  else { s with settleStarted := true, settleRunning := threadStarts }

/-- What a commit injects: the entries, how many of them count, and the properties added. -/
structure Injection where
  parms : Fin 8 → Upd
  n : ℤ
  adds : List Add

/-- What `init_parms` makes of the snapshot of an injecting commit. -/
def nextParms (snap : Snapshot) (dt : ℤ) (s : Shim) : InitResult :=
  submit s.tun s.updatesSinceFull (advanceMarker s.parms) dt snap

/-- The end of a commit that is neither skipped nor throttled. -/
def inject (libs : Libs) (env : Env) (snap : Snapshot) (dt : ℤ) (s : Shim) : Shim × Injection :=
  let r := nextParms snap dt s
  let s := { s with
    lastInjectMs := nowMs libs env.clock
    parms := r.parms
    updatesSinceFull := r.updatesSinceFull
    settlePending := true }
  let (s, adds) := addParms libs env.driver r.n s.pend (startSettleThread libs env.threadStarts s)
  (s.clearPend, ⟨r.parms, r.n, adds⟩)

/-- Milliseconds since the last injection, or -1 before the first. -/
def sinceInject (libs : Libs) (env : Env) (s : Shim) : ℤ :=
  if s.lastInjectMs ≠ 0 then nowMs libs env.clock - s.lastInjectMs else -1

/-- The rate limit, and what comes after it. -/
def throttleOrInject (libs : Libs) (env : Env) (snap : Snapshot) (s : Shim) :
    Shim × Option Injection :=
  let dt := sinceInject libs env s
  if 0 < s.tun.interval ∧ 0 ≤ dt ∧ dt < s.tun.interval then (s.clearPend, none)
  else
    let (s, i) := inject libs env snap dt s
    (s, some i)

/-- A real commit from `read_damage` on. -/
def commitPrepared (libs : Libs) (env : Env) (s : Shim) : Shim × Option Injection :=
  let (snap, seq) := readDamage s.attached env.views s.lastDmgSeq
  let s := { s with lastDmgSeq := seq }
  if s.attached then
    if ! snap.changed then (s.clearPend, none) else throttleOrInject libs env snap s
  else if s.tun.skipsame ≠ 0 ∧ s.fbidProp ≠ 0 then
    let sig := fbSig s.pend
    if sig = s.lastFbSig then (s.clearPend, none)
    else throttleOrInject libs env snap { s with lastFbSig := sig }
  else throttleOrInject libs env snap s

/-- The state that a real commit works on: tunables refreshed, damage map tried. -/
def prepare (libs : Libs) (env : Env) (s : Shim) : Shim :=
  attachDamage libs env.file (refreshTunables env.props s)

/-- `drmModeAtomicCommit`. -/
def drmModeAtomicCommit (libs : Libs) (env : Env) (testOnly : Bool) (s : Shim) :
    Shim × Option Injection :=
  if testOnly then ((refreshTunables env.props s).clearPend, none)
  else if (refreshTunables env.props s).tun.enable = 0 then
    ((refreshTunables env.props s).clearPend, none)
  else commitPrepared libs env (prepare libs env s)

/-! ### The settle thread -/

/-- `if (++marker <= 0) marker = 1;` -/
def nextSettleMarker (marker : ℤ) : ℤ :=
  if wrap32 (marker + 1) ≤ 0 then 1 else wrap32 (marker + 1)

/-- The update that a settle pass sends: the whole panel in the quality waveform. -/
def settleUpd (t : Tunables) (marker : ℤ) : Upd where
  rect := ![0, 0, PANEL_W, PANEL_H]
  waveformMode := t.settlewf
  updateMode := 1
  updateMarker := marker
  temp := 0
  flag := t.flag
  reserved := 0

/-- `settle_now`, when `/dev/ebc` opens or not. -/
def settleNow (libs : Libs) (opens : Bool) (s : Shim) : Shim × Option Upd :=
  if ! libs.open_ || ! libs.ioctl then (s, none)
  else if ! opens then (s, none)
  else ({ s with settleMarker := nextSettleMarker s.settleMarker },
    some (settleUpd s.tun (nextSettleMarker s.settleMarker)))

/-- One round of `settle_thread`. -/
def settleTick (libs : Libs) (clock : ℤ) (opens : Bool) (s : Shim) : Shim × Option Upd :=
  if ! s.settleRunning then (s, none)
  else if s.tun.settlems = 0 ∨ ! s.settlePending then (s, none)
  else if nowMs libs clock - s.lastInjectMs < s.tun.settlems then (s, none)
  else settleNow libs opens { s with settlePending := false }

/-! ### The shim as a machine -/

/-- A call into the shim, or a round of its thread. -/
inductive Event
  | addProperty (req : ℕ) (obj prop : UInt32) (value : UInt64)
  | commit (req : ℕ) (testOnly : Bool) (env : Env)
  | settle (clock : ℤ) (opens : Bool)

/-- What the shim hands to the EPD driver. -/
inductive Output
  | injected (req : ℕ) (i : Injection)
  | settled (u : Upd)

/-- One step of the shim. -/
def Shim.step (libs : Libs) (s : Shim) : Event → Shim × Option Output
  | .addProperty _ obj prop value => (drmModeAtomicAddProperty obj prop value s, none)
  | .commit req testOnly env =>
    let (s, i) := drmModeAtomicCommit libs env testOnly s
    (s, i.map (.injected req))
  | .settle clock opens =>
    let (s, u) := settleTick libs clock opens s
    (s, u.map .settled)

/-! ### A commit in one equation -/

/-- The commit drives the panel at all: it is not a validation pass, and the shim is enabled. -/
def Drives (env : Env) (testOnly : Bool) (s : Shim) : Prop :=
  testOnly = false ∧ (refreshTunables env.props s).tun.enable ≠ 0

instance (env : Env) (testOnly : Bool) (s : Shim) : Decidable (Drives env testOnly s) :=
  inferInstanceAs (Decidable (_ ∧ _))

/-- The damage snapshot of a real commit. -/
def snapshot (env : Env) (s : Shim) : Snapshot := (readDamage s.attached env.views s.lastDmgSeq).1

/-- The commit compares framebuffer signatures. -/
def ComparesFbs (s : Shim) : Prop := s.attached = false ∧ s.tun.skipsame ≠ 0 ∧ s.fbidProp ≠ 0

instance (s : Shim) : Decidable (ComparesFbs s) := inferInstanceAs (Decidable (_ ∧ _))

/-- The change detector fires: SurfaceFlinger has composited something new, or, without a damage
map, the framebuffers differ from the ones last acted on or are not compared. -/
def Fires (env : Env) (s : Shim) : Prop :=
  s.attached = true ∧ (snapshot env s).changed = true ∨
    s.attached = false ∧ ¬ (ComparesFbs s ∧ fbSig s.pend = s.lastFbSig)

instance (env : Env) (s : Shim) : Decidable (Fires env s) :=
  inferInstanceAs (Decidable (_ ∧ _ ∨ _ ∧ _))

/-- The rate limit holds a commit back. -/
def Throttled (libs : Libs) (env : Env) (s : Shim) : Prop :=
  0 < s.tun.interval ∧ 0 ≤ sinceInject libs env s ∧ sinceInject libs env s < s.tun.interval

instance (libs : Libs) (env : Env) (s : Shim) : Decidable (Throttled libs env s) :=
  inferInstanceAs (Decidable (_ ∧ _))

/-- The state after the change detector has looked. -/
def observed (env : Env) (s : Shim) : Shim :=
  { s with
    lastDmgSeq := (readDamage s.attached env.views s.lastDmgSeq).2
    lastFbSig := if ComparesFbs s then fbSig s.pend else s.lastFbSig }

section Commit

variable {libs : Libs} {env : Env} {testOnly : Bool} {s : Shim}

/-- What the rate limit makes of a state that the change detector has looked at. -/
theorem throttleOrInject_observed (snap : Snapshot) :
    throttleOrInject libs env snap (observed env s) =
      if Throttled libs env s then ((observed env s).clearPend, none)
      else ((inject libs env snap (sinceInject libs env s) (observed env s)).1,
        some (inject libs env snap (sinceInject libs env s) (observed env s)).2) := rfl

/-- **A real commit in one equation.** -/
theorem commitPrepared_eq : commitPrepared libs env s =
    if Fires env s ∧ ¬ Throttled libs env s then
      ((inject libs env (snapshot env s) (sinceInject libs env s) (observed env s)).1,
        some (inject libs env (snapshot env s) (sinceInject libs env s) (observed env s)).2)
    else ((observed env s).clearPend, none) := by
  let seen : Shim := { s with lastDmgSeq := (readDamage s.attached env.views s.lastDmgSeq).2 }
  have hcases : commitPrepared libs env s =
      if Fires env s then throttleOrInject libs env (snapshot env s) (observed env s)
      else ((observed env s).clearPend, none) := by
    change (if s.attached then
        if ! (snapshot env s).changed then (seen.clearPend, none)
        else throttleOrInject libs env (snapshot env s) seen
      else if s.tun.skipsame ≠ 0 ∧ s.fbidProp ≠ 0 then
        if fbSig s.pend = s.lastFbSig then (seen.clearPend, none)
        else throttleOrInject libs env (snapshot env s) { seen with lastFbSig := fbSig s.pend }
      else throttleOrInject libs env (snapshot env s) seen) = _
    by_cases hatt : s.attached
    · have hobs : observed env s = seen := by
        rw [observed, if_neg fun h => absurd hatt (by simp [h.1])]
      have hfires : Fires env s ↔ (snapshot env s).changed = true := by simp [Fires, hatt]
      rw [if_pos hatt, hobs]
      by_cases hchanged : (snapshot env s).changed
      · rw [if_pos (hfires.mpr hchanged), if_neg (by simp [hchanged])]
      · rw [if_neg (mt hfires.mp hchanged), if_pos (by simp [hchanged])]
    · rw [if_neg hatt]
      by_cases hcmp : s.tun.skipsame ≠ 0 ∧ s.fbidProp ≠ 0
      · have hcompares : ComparesFbs s := ⟨by simpa using hatt, hcmp⟩
        have hfires : Fires env s ↔ fbSig s.pend ≠ s.lastFbSig := by simp [Fires, hatt, hcompares]
        have hobs : observed env s = { seen with lastFbSig := fbSig s.pend } := by
          rw [observed, if_pos hcompares]
        rw [if_pos hcmp]
        by_cases hsig : fbSig s.pend = s.lastFbSig
        · rw [if_pos hsig, if_neg (fun h => hfires.mp h hsig), hobs, hsig]
        · rw [if_neg hsig, if_pos (hfires.mpr hsig), hobs]
      · have hcompares : ¬ ComparesFbs s := fun h => hcmp h.2
        have hobs : observed env s = seen := by rw [observed, if_neg hcompares]
        have hfires : Fires env s := Or.inr ⟨by simpa using hatt, fun h => hcompares h.1⟩
        rw [if_neg hcmp, if_pos hfires, hobs]
  rw [hcases, throttleOrInject_observed]
  by_cases hfires : Fires env s
  · by_cases hthr : Throttled libs env s
    · rw [if_pos hfires, if_pos hthr, if_neg (fun h => h.2 hthr)]
    · rw [if_pos hfires, if_neg hthr, if_pos ⟨hfires, hthr⟩]
  · rw [if_neg hfires, if_neg (fun h => hfires h.1)]

/-- **A commit in one equation.** -/
theorem drmModeAtomicCommit_eq : drmModeAtomicCommit libs env testOnly s =
    if Drives env testOnly s then commitPrepared libs env (prepare libs env s)
    else ((refreshTunables env.props s).clearPend, none) := by
  rw [drmModeAtomicCommit]
  by_cases hd : Drives env testOnly s
  · rw [if_pos hd, if_neg (by simp [hd.1]), if_neg hd.2]
  · rw [if_neg hd]
    rw [Drives, not_and_or, not_not] at hd
    split_ifs with htest henable
    · rfl
    · rfl
    · exact absurd hd (by simp [htest, henable])

/-- **The cases of a commit**: it is skipped, or held back by the change detector or the rate
limit, or it injects. -/
theorem drmModeAtomicCommit_cases (libs : Libs) (env : Env) (testOnly : Bool) (s : Shim) :
    (¬ Drives env testOnly s ∧ drmModeAtomicCommit libs env testOnly s
      = ((refreshTunables env.props s).clearPend, none)) ∨
    (Drives env testOnly s ∧
      (¬ Fires env (prepare libs env s) ∨ Throttled libs env (prepare libs env s)) ∧
      drmModeAtomicCommit libs env testOnly s
        = ((observed env (prepare libs env s)).clearPend, none)) ∨
    (Drives env testOnly s ∧ Fires env (prepare libs env s) ∧
      ¬ Throttled libs env (prepare libs env s) ∧
      drmModeAtomicCommit libs env testOnly s
        = ((inject libs env (snapshot env (prepare libs env s))
            (sinceInject libs env (prepare libs env s)) (observed env (prepare libs env s))).1,
          some (inject libs env (snapshot env (prepare libs env s))
            (sinceInject libs env (prepare libs env s))
            (observed env (prepare libs env s))).2)) := by
  rw [drmModeAtomicCommit_eq, commitPrepared_eq]
  by_cases hd : Drives env testOnly s
  · right
    rw [if_pos hd]
    by_cases hf : Fires env (prepare libs env s) ∧ ¬ Throttled libs env (prepare libs env s)
    · right
      rw [if_pos hf]
      exact ⟨hd, hf.1, hf.2, rfl⟩
    · left
      rw [if_neg hf]
      rw [not_and_or, not_not] at hf
      exact ⟨hd, hf, rfl⟩
  · left
    rw [if_neg hd]
    exact ⟨hd, rfl⟩

/-- The cases of a round of the settle thread: it sends nothing, or something was pending and it
sends the settle pass. -/
theorem settleTick_cases (libs : Libs) (clock : ℤ) (opens : Bool) (s : Shim) :
    (∃ b, (b = true → s.settlePending = true) ∧
      settleTick libs clock opens s = ({ s with settlePending := b }, none)) ∨
    (s.settlePending = true ∧ settleTick libs clock opens s
      = ({ s with settlePending := false, settleMarker := nextSettleMarker s.settleMarker },
        some (settleUpd s.tun (nextSettleMarker s.settleMarker)))) := by
  simp only [settleTick, settleNow]
  split_ifs with _ hpending
  · exact Or.inl ⟨s.settlePending, id, rfl⟩
  · exact Or.inl ⟨s.settlePending, id, rfl⟩
  · exact Or.inl ⟨s.settlePending, id, rfl⟩
  · exact Or.inl ⟨false, nofun, rfl⟩
  · exact Or.inl ⟨false, nofun, rfl⟩
  · refine Or.inr ⟨?_, rfl⟩
    rw [not_or] at hpending
    simpa using hpending.2

end Commit

/-! ### Frames

Each step of a commit changes a few variables of the shim and no other. -/

section Frames

variable (libs : Libs) (env : Env) (s : Shim)

theorem refreshTunables_frame (props : Tunables) : ∃ c t, refreshTunables props s
    = { s with commitsSinceRecheck := c, tun := t } := by
  rw [refreshTunables]
  split_ifs
  · exact ⟨_, _, rfl⟩
  · exact ⟨_, _, rfl⟩

theorem attachDamage_frame (file : DamageFile) : ∃ tried fds maps att, attachDamage libs file s
    = { s with dmgTried := tried, dmgFds := fds, dmgMaps := maps, attached := att } := by
  simp only [attachDamage]
  split_ifs
  · exact ⟨_, _, _, _, rfl⟩
  · exact ⟨_, _, _, _, rfl⟩
  · exact ⟨_, _, _, _, rfl⟩
  · cases file <;> exact ⟨_, _, _, _, rfl⟩

theorem prepare_frame : ∃ c t tried fds maps att, prepare libs env s
    = { s with
        commitsSinceRecheck := c
        tun := t
        dmgTried := tried
        dmgFds := fds
        dmgMaps := maps
        attached := att } := by
  obtain ⟨c, t, h⟩ := refreshTunables_frame s env.props
  obtain ⟨tried, fds, maps, att, h'⟩ :=
    attachDamage_frame libs (refreshTunables env.props s) env.file
  rw [prepare, h', h]
  exact ⟨c, t, tried, fds, maps, att, rfl⟩

theorem lookup_frame (driver : Driver) (obj : UInt32) : ∃ cache fbid,
    (lookup libs driver obj s).1 = { s with cache := cache, fbidProp := fbid } := by
  rw [lookup]
  split
  · exact ⟨_, _, rfl⟩
  · split_ifs
    · exact ⟨_, _, rfl⟩
    · exact ⟨_, _, rfl⟩
    · split
      · exact ⟨_, _, rfl⟩
      · exact ⟨_, _, rfl⟩

theorem addParms_frame (driver : Driver) (nRect : ℤ) (pend : List (UInt32 × UInt32)) :
    ∃ cache fbid, (addParms libs driver nRect pend s).1
      = { s with cache := cache, fbidProp := fbid } := by
  induction pend generalizing s with
  | nil => exact ⟨_, _, rfl⟩
  | cons p pend ih =>
    obtain ⟨cache, fbid, hlookup⟩ := lookup_frame libs s driver p.1
    obtain ⟨cache', fbid', hrest⟩ := ih (lookup libs driver p.1 s).1
    refine ⟨cache', fbid', ?_⟩
    rw [hlookup] at hrest
    rw [← hrest, addParms, ← hlookup]
    split
    · rename_i h
      rw [h]
    · rename_i h
      rw [h]
      dsimp only
      split_ifs <;> rfl

theorem startSettleThread_frame (threadStarts : Bool) : ∃ started running,
    startSettleThread libs threadStarts s
      = { s with settleStarted := started, settleRunning := running } := by
  rw [startSettleThread]
  split_ifs
  · exact ⟨_, _, rfl⟩
  · exact ⟨_, _, rfl⟩

theorem inject_frame (snap : Snapshot) (dt : ℤ) : ∃ cache fbid started running,
    (inject libs env snap dt s).1 = { s with
      lastInjectMs := nowMs libs env.clock
      parms := (nextParms snap dt s).parms
      updatesSinceFull := (nextParms snap dt s).updatesSinceFull
      settlePending := true
      settleStarted := started
      settleRunning := running
      cache := cache
      fbidProp := fbid
      pend := [] } := by
  obtain ⟨started, running, hs⟩ := startSettleThread_frame libs { s with
    lastInjectMs := nowMs libs env.clock
    parms := (nextParms snap dt s).parms
    updatesSinceFull := (nextParms snap dt s).updatesSinceFull
    settlePending := true } env.threadStarts
  obtain ⟨cache, fbid, h⟩ := addParms_frame libs _ env.driver (nextParms snap dt s).n s.pend
  refine ⟨cache, fbid, started, running, ?_⟩
  rw [inject]
  dsimp only
  rw [hs, h]
  rfl

end Frames

end PalmaEos
