import Mathlib.Data.List.DropRight
import PalmaEos.Lib.ShellRules
import PalmaEos.Lib.Text
import PalmaEos.UnlockBootloader

/-!
# The scripts of the unlock procedure

`edl-verify-restore.sh` writes one harmless partition back, and leaves a receipt in the backup if
what it reads is what it wrote. `unlock-bootloader.sh` checks its gates, the receipt among them,
before it writes the Fairphone ABL, unlocks, and restores Onyx's ABL. This is both scripts, from
their arguments to their end, in a world that may answer anything.

Left out is what the scripts print, and what they only sleep for. `wc`, `head`, `shasum`, `cut` and
`mktemp` on files of the host are taken to succeed; `files` is what they read, and `sha256` what
`shasum -a 256 | cut` prints.

## Main results

* `unlock`, `verifyRestore` — the scripts
* `gates_finished` — what the gates have seen when the script gets past them
* `writeVerified_finished` — what has been read back when it gets past a write
-/

namespace PalmaEos

namespace UnlockBootloader

open Script

/-! ### The commands -/

/-- A command of the scripts that asks about files, asks the operator, or reaches the device. -/
inductive Step
  /-- `[[ -d dir ]]` -/
  | isDir (dir : Bytes)
  /-- `[[ -f path ]]` -/
  | isFile (path : Bytes)
  /-- `[[ -s path ]]` -/
  | notEmpty (path : Bytes)
  /-- `command -v tool` -/
  | commandV (tool : String)
  /-- `awk -v n="$name" -F'\t' '$1==n {print $2; exit}' "$IDX"` -/
  | lookup (idx : Bytes) (name : String)
  /-- `find "$BACKUP_DIR" -type f -name "${name}.bin" | head -1` -/
  | find (dir : Bytes) (name : String)
  /-- `( cd "$BACKUP_DIR" && shasum -a 256 --quiet -c SHA256SUMS )` -/
  | checkSums (dir : Bytes)
  /-- `sed 's/^/      /' path` -/
  | sed (path : Bytes)
  /-- `read` -/
  | read
  /-- `adb get-state` -/
  | getState
  /-- `adb get-state | grep -q device` -/
  | adbDevice
  /-- `adb shell getprop name` -/
  | getprop (name : String)
  /-- `adb reboot target` -/
  | adbReboot (target : String)
  /-- `fastboot devices | grep -q fastboot` -/
  | fastbootDevice
  /-- `fastboot getvar product 2>&1 | sed -n 's/^product: *//p' | head -1` -/
  | getvarProduct
  /-- `fastboot flashing what` -/
  | flashing (what : String)
  /-- `fastboot oem device-info 2>&1 | grep -qi 'Device unlocked: true'` -/
  | unlockedNow
  /-- `fastboot oem device-info 2>&1 | head -5` -/
  | deviceInfo
  /-- `edl w part file` -/
  | w (part : String) (file : Bytes)
  /-- `edl r part file`, which gives back what is in the file then. -/
  | r (part : String)
  /-- `edl setactiveslot slot` -/
  | setactiveslot (slot : String)
  /-- `edl reset` -/
  | reset
  /-- `cmp -n size src` with what was read back of the partition -/
  | cmp (src : Bytes) (part : String)
  /-- `cat > "${BACKUP_DIR}/GATE3-PASS"` -/
  | receipt (dir : Bytes)
  deriving DecidableEq

def bytes (s : String) : Bytes := Text.encode s.toList

/-- What `$(…)` makes of an output. -/
def substituted (output : Bytes) : Bytes := (output.filter (· ≠ 0)).rdropWhile (· = 10)

/-- What `$(… | tr -d '\r\n')` makes of an output. -/
def oneLine (output : Bytes) : Bytes :=
  substituted (output.filter fun b => b ≠ 13 ∧ b ≠ 10)

/-- What `read` makes of a line. -/
def answer (output : Bytes) : Bytes :=
  (output.dropWhile (· ∈ [9, 10, 32])).rdropWhile (· ∈ [9, 10, 32])

def LOADER (root : Bytes) : Bytes := root ++ bytes "/firmware/palma2pro-firehose.bin"
def FP4_ABL (root : Bytes) : Bytes := root ++ bytes "/firmware/abl-fp4.img"
def IDX (dir : Bytes) : Bytes := dir ++ bytes "/partitions.idx"
def SHA256SUMS (dir : Bytes) : Bytes := dir ++ bytes "/SHA256SUMS"
def GATE3_PASS (dir : Bytes) : Bytes := dir ++ bytes "/GATE3-PASS"

/-- `resolve_part` of `unlock-bootloader.sh`. -/
def resolvePart (dir : Bytes) (name : String) : Script Step (Option Bytes) := do
  let hit ← ask (.lookup (IDX dir) name)
  if substituted hit.output = [] then return none
  else return some (dir ++ bytes "/" ++ substituted hit.output)

/-- `"$(resolve_part name)"`, where failing ends the script. -/
def required (dir : Bytes) (name : String) : Script Step Bytes := do
  match ← resolvePart dir name with
  | none => exit 1
  | some f => return f

/-! ### `unlock-bootloader.sh` -/

/-- Gate 1: tooling and loader. -/
def gate1 (root : Bytes) : Script Step Unit := do
  orElse (.commandV "edl") (exit 1)
  orElse (.commandV "fastboot") (exit 1)
  orElse (.isFile (LOADER root)) (exit 1)

/-- The partitions that a backup must have. -/
def critical : List String :=
  ["abl_a", "abl_b", "boot_a", "boot_b", "vbmeta_a", "vbmeta_b", "devinfo", "modemst1", "modemst2",
    "fsg", "persist", "onyxconfig"]

/-- The loop over the partitions. -/
def checkParts (dir : Bytes) : List String → Script Step Unit
  | [] => pure ()
  | p :: ps => do
    let f ← required dir p
    orElse (.notEmpty f) (exit 1)
    checkParts dir ps

/-- Gate 2: backup is complete and intact. -/
def gate2 (dir : Bytes) : Script Step Unit := do
  orElse (.isFile (IDX dir)) (exit 1)
  checkParts dir critical
  orElse (.isFile (SHA256SUMS dir)) (exit 1)
  orElse (.checkSums dir) (exit 1)

/-- Gate 3: the restore path is proven, not assumed. -/
def gate3 (dir : Bytes) : Script Step Unit := do
  orElse (.isFile (GATE3_PASS dir)) (exit 1)
  let _ ← plain (.sed (GATE3_PASS dir))

/-- Gate 4: Fairphone 4 ABL. -/
def gate4 (root : Bytes) : Script Step Unit :=
  orElse (.isFile (FP4_ABL root)) (exit 1)

/-- Gate 5: the device agrees to be unlocked. The slot that it reports. -/
def gate5 : Script Step Bytes := do
  orElse (.commandV "adb") (exit 1)
  orElse .getState (exit 1)
  let oemOk ← plain (.getprop "sys.oem_unlock_allowed")
  let locked ← plain (.getprop "ro.boot.flash.locked")
  let slot ← plain (.getprop "ro.boot.slot_suffix")
  if oneLine oemOk.output = bytes "1" then do
    if oneLine locked.output = bytes "0" then do
      let a ← plain .read
      if answer a.output = bytes "y" then return oneLine slot.output else exit 0
    else return oneLine slot.output
  else exit 1

/-- The operator has to type `UNLOCK`. -/
def confirm : Script Step Unit := do
  let ans ← plain .read
  if answer ans.output = bytes "UNLOCK" then return () else exit 1

/-- `${SLOT#_}` -/
def withoutUnderscore : Bytes → Bytes
  | 0x5F :: slot => slot
  | slot => slot

/-- What the gates leave behind. -/
structure Ready where
  onyxAblA : Bytes
  onyxAblB : Bytes
  activeSlot : Bytes

/-- The script up to the confirmation. -/
def gates (root activeSlot dir : Bytes) : Script Step Ready := do
  if dir ≠ [] then do
    orElse (.isDir dir) (exit 1)
    gate1 root
    gate2 dir
    gate3 dir
    gate4 root
    let onyxAblA ← required dir "abl_a"
    let onyxAblB ← required dir "abl_b"
    let slot ← gate5
    confirm
    return ⟨onyxAblA, onyxAblB, if slot ≠ [] then withoutUnderscore slot
      else if activeSlot = [] then bytes "b" else activeSlot⟩
  else exit 2

def Part.name : Part → String
  | .ablA => "abl_a"
  | .ablB => "abl_b"

/-- The file of an image. -/
def Ready.file (root : Bytes) (ready : Ready) : Image → Bytes
  | .fp4Abl => FP4_ABL root
  | .onyxAbl .ablA => ready.onyxAblA
  | .onyxAbl .ablB => ready.onyxAblB

/-- The commands of the swap, with the names of the partitions and the files. -/
def Ready.step (root : Bytes) (ready : Ready) : Command → Step
  | .rebootEdl => .adbReboot "edl"
  | .w part img => .w part.name (ready.file root img)
  | .r part => .r part.name
  | .setactiveslot slot => .setactiveslot slot
  | .reset => .reset

/-- `wait_for_adb`, `wait_for_fastboot`: up to `n` looks at the device. -/
def waitFor (c : Step) : ℕ → Script Step Bool
  | 0 => pure false
  | n + 1 => do
    let r ← ask c
    if r.status = 0 then return true else waitFor c n

def waitForAdb : Script Step Bool := waitFor .adbDevice 31

def waitForFastboot : Script Step Bool := waitFor .fastbootDevice 21

/-- `c || die` for a function. -/
def orDie (s : Script Step Bool) : Script Step Unit := do
  if ← s then return () else exit 1

/-- The device is sent from Android to the bootloader. -/
def toBootloader : Script Step Unit := do
  orDie waitForAdb
  let _ ← plain (.adbReboot "bootloader")
  orDie waitForFastboot

/-- `wait_for_fastboot`, or back to the bootloader from Android. -/
def backToFastboot : Script Step Unit := do
  if ← waitForFastboot then return () else toBootloader

/-- `fastboot flashing unlock`, and what the device then says of itself. -/
def flashUnlock : Script Step Reply := do
  let _ ← plain .read
  orElse (.flashing "unlock") (pure ())
  backToFastboot
  ask .unlockedNow

/-- `wait_for_adb && adb reboot bootloader && wait_for_fastboot` -/
def retryFastboot : Script Step Unit := do
  if ← waitForAdb then do
    let r ← ask (.adbReboot "bootloader")
    if r.status = 0 then do
      let _ ← waitForFastboot
    else return ()
  else return ()

/-- `wait_for_fastboot || { …; } || true` -/
def tryFastboot : Script Step Unit := do
  if ← waitForFastboot then return () else retryFastboot

/-- `fastboot flashing unlock_critical`, up to the restore. -/
def unlockCritical : Script Step Unit := do
  orElse (.flashing "unlock_critical") (pure ())
  tryFastboot
  let _ ← plain .deviceInfo
  let _ ← plain .read

/-- The middle part: unlock, from the first `reset` to the restore. -/
def unlockDevice : Script Step Unit := do
  toBootloader
  let product ← plain .getvarProduct
  if substituted product.output = bytes "FP4" then do
    let unlocked ← flashUnlock
    if unlocked.status = 0 then unlockCritical
    else do
      let _ ← plain .deviceInfo
      exit 1
  else exit 1

/-- `unlock-bootloader.sh <backup-dir>`, in the environment that sets `ACTIVE_SLOT`. -/
def unlock (root : Bytes) (files : Bytes → Bytes) (sha256 : Bytes → String)
    (activeSlot dir : Bytes) : Script Step Unit := do
  let ready ← gates root activeSlot dir
  let contents := fun img => files (ready.file root img)
  let slot := String.ofList (Text.ascii ready.activeSlot)
  (swap contents sha256 slot).mapCalls (ready.step root)
  unlockDevice
  (writeVerified contents sha256 .ablA (.onyxAbl .ablA)).mapCalls (ready.step root)
  (writeVerified contents sha256 .ablB (.onyxAbl .ablB)).mapCalls (ready.step root)
  let _ ← plain (.setactiveslot slot)
  let _ ← plain .reset

/-! ### `edl-verify-restore.sh` -/

/-- `resolve_part` of `edl-verify-restore.sh`, as far as it looks into the index. -/
def resolveIndexed (dir : Bytes) (name : String) : Script Step (Option Bytes) := do
  let idx ← ask (.isFile (IDX dir))
  if idx.status = 0 then resolvePart dir name else return none

/-- `resolve_part` of `edl-verify-restore.sh`, as far as it searches. -/
def resolveFound (dir : Bytes) (name : String) : Script Step (Option Bytes) := do
  let hit ← ask (.find dir name)
  if substituted hit.output = [] then return none else return some (substituted hit.output)

/-- `resolve_part` of `edl-verify-restore.sh`. -/
def resolveOrFind (dir : Bytes) (name : String) : Script Step (Option Bytes) := do
  match ← resolveIndexed dir name with
  | some f => return some f
  | none => resolveFound dir name

/-- `"${ACTIVE_SLOT_OVERRIDE:-b}"` -/
def assumedSlot (override : Bytes) : Bytes := if override = [] then bytes "b" else override

/-- The partition of the slot that is not active. -/
def testPart (activeSlot : Bytes) : Option String :=
  if activeSlot = bytes "b" then some "dtbo_a"
  else if activeSlot = bytes "a" then some "dtbo_b"
  else none

/-- From the write on. -/
def tryPart (files : Bytes → Bytes) (dir : Bytes) (part : String) (src : Bytes) :
    Script Step Unit := do
  let _ ← plain (.w part src)
  let _ ← plain (.r part)
  if 0 < (files src).length then do
    orElse (.cmp src part) (exit 1)
    let _ ← plain (.receipt dir)
  else exit 2

/-- `edl-verify-restore.sh <backup-dir>`, in the environment that sets `ACTIVE_SLOT_OVERRIDE`. -/
def verifyRestore (files : Bytes → Bytes) (override dir : Bytes) : Script Step Unit := do
  if dir ≠ [] then do
    orElse (.isDir dir) (exit 1)
    match testPart (assumedSlot override) with
    | none => exit 1
    | some part => do
      match ← resolveOrFind dir part with
      | none => exit 1
      | some src => tryPart files dir part src
  else exit 1

/-! ### Past the gates -/

/-- The command has gone well. -/
def Went (h : History Step) (c : Step) : Prop := ∃ r, (c, r) ∈ h ∧ r.status = 0

/-- The index of the backup has named the file for the partition. -/
def Resolves (dir : Bytes) (h : History Step) (name : String) (f : Bytes) : Prop :=
  ∃ r, (.lookup (IDX dir) name, r) ∈ h ∧ substituted r.output ≠ [] ∧
    f = dir ++ bytes "/" ++ substituted r.output

/-- **What the gates have seen.** -/
structure Gates (root dir : Bytes) (h : History Step) : Prop where
  tools : ∀ tool ∈ ["edl", "fastboot", "adb"], Went h (.commandV tool)
  loader : Went h (.isFile (LOADER root))
  backup : ∀ p ∈ critical, ∃ f, Resolves dir h p f ∧ Went h (.notEmpty f)
  sums : Went h (.checkSums dir)
  receipt : Went h (.isFile (GATE3_PASS dir))
  fp4Abl : Went h (.isFile (FP4_ABL root))
  allowed : ∃ r, (.getprop "sys.oem_unlock_allowed", r) ∈ h ∧ r.status = 0 ∧
    oneLine r.output = bytes "1"
  typed : ∃ r, (.read, r) ∈ h ∧ r.status = 0 ∧ answer r.output = bytes "UNLOCK"

section Finished

variable {root dir : Bytes} {files : Bytes → Bytes} {w : World Step} {h h' : History Step}
  {c : Step} {name : String} {f : Bytes} {u : Unit}

theorem Went.mono (hc : Went h c) (hpre : h <+: h') : Went h' c := by
  obtain ⟨r, hr, hzero⟩ := hc
  exact ⟨r, hpre.subset hr, hzero⟩

theorem went_after (hzero : (w h c).status = 0) : Went (h.after w c) c :=
  ⟨w h c, List.mem_append_right h (List.mem_singleton_self _), hzero⟩

theorem prefix_after : h <+: h.after w c := List.prefix_append h _

theorem Resolves.mono (hf : Resolves dir h name f) (hpre : h <+: h') : Resolves dir h' name f := by
  obtain ⟨r, hr, hhit⟩ := hf
  exact ⟨r, hpre.subset hr, hhit⟩

theorem Gates.mono (hgates : Gates root dir h) (hpre : h <+: h') : Gates root dir h' := by
  constructor
  · exact fun tool htool => (hgates.tools tool htool).mono hpre
  · exact hgates.loader.mono hpre
  · intro p hp
    obtain ⟨f, hf, hempty⟩ := hgates.backup p hp
    exact ⟨f, hf.mono hpre, hempty.mono hpre⟩
  · exact hgates.sums.mono hpre
  · exact hgates.receipt.mono hpre
  · exact hgates.fp4Abl.mono hpre
  · obtain ⟨r, hr, hone⟩ := hgates.allowed
    exact ⟨r, hpre.subset hr, hone⟩
  · obtain ⟨r, hr, hans⟩ := hgates.typed
    exact ⟨r, hpre.subset hr, hans⟩

theorem prefix_of_run {α : Type} {s : Script Step α} {e : Ending α}
    (hrun : s.run w h = (e, h')) : h <+: h' := by
  have hpre := run_prefix (w := w) (h := h) s
  rwa [hrun] at hpre

/-- `c || die` that was passed. -/
theorem went_of_orExit {status : ℕ}
    (hrun : (orElse c (exit status)).run w h = (.finished u, h')) : Went h' c := by
  obtain ⟨hzero, rfl⟩ := orExit_finished.mp hrun
  exact went_after hzero

theorem required_finished (hrun : (required dir name).run w h = (.finished f, h')) :
    Resolves dir h' name f := by
  obtain ⟨found, h₁, hfound, hrest⟩ := bind_finished.mp hrun
  obtain ⟨hit, h₂, hhit, hfound⟩ := bind_finished.mp hfound
  obtain ⟨rfl, rfl⟩ := ask_finished.mp hhit
  split_ifs at hfound with hempty
  · obtain ⟨rfl, rfl⟩ := ret_finished.mp hfound
    exact absurd hrest exit_finished
  · obtain ⟨rfl, rfl⟩ := ret_finished.mp hfound
    obtain ⟨rfl, rfl⟩ := ret_finished.mp hrest
    exact ⟨_, List.mem_append_right h (List.mem_singleton_self _), hempty, rfl⟩

theorem checkParts_finished {ps : List String}
    (hrun : (checkParts dir ps).run w h = (.finished u, h')) :
    ∀ p ∈ ps, ∃ f, Resolves dir h' p f ∧ Went h' (.notEmpty f) := by
  induction ps generalizing h with
  | nil => exact fun p hp => absurd hp List.not_mem_nil
  | cons p ps ih =>
    obtain ⟨f, h₁, hf, hrest⟩ := bind_finished.mp hrun
    obtain ⟨_, h₂, hempty, hrest⟩ := bind_finished.mp hrest
    rw [List.forall_mem_cons]
    refine ⟨⟨f, ?_, ?_⟩, ih hrest⟩
    · exact (required_finished hf).mono ((prefix_of_run hempty).trans (prefix_of_run hrest))
    · exact (went_of_orExit hempty).mono (prefix_of_run hrest)

theorem gate1_finished (hrun : (gate1 root).run w h = (.finished u, h')) :
    Went h' (.commandV "edl") ∧ Went h' (.commandV "fastboot") ∧
      Went h' (.isFile (LOADER root)) := by
  obtain ⟨_, h₁, hedl, hrest⟩ := bind_finished.mp hrun
  obtain ⟨_, h₂, hfastboot, hloader⟩ := bind_finished.mp hrest
  exact ⟨(went_of_orExit hedl).mono (prefix_of_run hrest),
    (went_of_orExit hfastboot).mono (prefix_of_run hloader), went_of_orExit hloader⟩

theorem gate2_finished (hrun : (gate2 dir).run w h = (.finished u, h')) :
    (∀ p ∈ critical, ∃ f, Resolves dir h' p f ∧ Went h' (.notEmpty f)) ∧
      Went h' (.checkSums dir) := by
  obtain ⟨_, h₁, -, hrest⟩ := bind_finished.mp hrun
  obtain ⟨_, h₂, hparts, hrest⟩ := bind_finished.mp hrest
  obtain ⟨_, h₃, -, hsums⟩ := bind_finished.mp hrest
  refine ⟨fun p hp => ?_, went_of_orExit hsums⟩
  obtain ⟨f, hf, hempty⟩ := checkParts_finished hparts p hp
  exact ⟨f, hf.mono (prefix_of_run hrest), hempty.mono (prefix_of_run hrest)⟩

theorem gate3_finished (hrun : (gate3 dir).run w h = (.finished u, h')) :
    Went h' (.isFile (GATE3_PASS dir)) := by
  obtain ⟨_, h₁, hreceipt, hrest⟩ := bind_finished.mp hrun
  exact (went_of_orExit hreceipt).mono (prefix_of_run hrest)

/-- The reply to a plain command. -/
theorem mem_of_plain {r : Reply} (hrun : (plain c).run w h = (.finished r, h')) :
    (c, r) ∈ h' ∧ r.status = 0 := by
  obtain ⟨rfl, hzero, rfl⟩ := plain_finished.mp hrun
  exact ⟨List.mem_append_right h (List.mem_singleton_self _), hzero⟩

theorem gate5_finished {slot : Bytes} (hrun : gate5.run w h = (.finished slot, h')) :
    Went h' (.commandV "adb") ∧ ∃ r, (.getprop "sys.oem_unlock_allowed", r) ∈ h' ∧ r.status = 0 ∧
      oneLine r.output = bytes "1" := by
  obtain ⟨_, h₁, hadb, hrest⟩ := bind_finished.mp hrun
  obtain ⟨_, h₂, -, hrest'⟩ := bind_finished.mp hrest
  obtain ⟨oemOk, h₃, hoem, hrest'⟩ := bind_finished.mp hrest'
  obtain ⟨hr, hzero⟩ := mem_of_plain hoem
  have hpre := prefix_of_run hrest'
  obtain ⟨locked, h₄, -, hrest'⟩ := bind_finished.mp hrest'
  obtain ⟨slot', h₅, -, hrest'⟩ := bind_finished.mp hrest'
  obtain ⟨hallowed, -⟩ := guard_finished.mp hrest'
  exact ⟨(went_of_orExit hadb).mono (prefix_of_run hrest), oemOk, hpre.subset hr, hzero, hallowed⟩

theorem confirm_finished (hrun : confirm.run w h = (.finished u, h')) :
    ∃ r, (.read, r) ∈ h' ∧ r.status = 0 ∧ answer r.output = bytes "UNLOCK" := by
  obtain ⟨ans, h₁, hread, hrest⟩ := bind_finished.mp hrun
  obtain ⟨hr, hzero⟩ := mem_of_plain hread
  obtain ⟨htyped, -⟩ := guard_finished.mp hrest
  exact ⟨ans, (prefix_of_run hrest).subset hr, hzero, htyped⟩

/-- **Past the gates**: everything that they ask for has been seen, and the files that will be
restored are those that the index of the backup names. -/
theorem gates_finished {activeSlot : Bytes} {ready : Ready}
    (hrun : (gates root activeSlot dir).run w h = (.finished ready, h')) :
    Gates root dir h' ∧ ∀ p : Part, Resolves dir h' p.name (ready.file root (.onyxAbl p)) := by
  obtain ⟨-, hrun⟩ := guard_finished.mp hrun
  obtain ⟨_, h₀, -, hrest⟩ := bind_finished.mp hrun
  obtain ⟨_, h₁, hgate1, hrest⟩ := bind_finished.mp hrest
  obtain ⟨_, h₂, hgate2, hrest₂⟩ := bind_finished.mp hrest
  obtain ⟨_, h₃, hgate3, hrest₃⟩ := bind_finished.mp hrest₂
  obtain ⟨_, h₄, hgate4, hrest₄⟩ := bind_finished.mp hrest₃
  obtain ⟨onyxAblA, h₅, hablA, hrest₅⟩ := bind_finished.mp hrest₄
  obtain ⟨onyxAblB, h₆, hablB, hrest₆⟩ := bind_finished.mp hrest₅
  obtain ⟨slot, h₇, hgate5, hrest₇⟩ := bind_finished.mp hrest₆
  obtain ⟨_, h₈, hconfirm, hrest₈⟩ := bind_finished.mp hrest₇
  obtain ⟨rfl, rfl⟩ := ret_finished.mp hrest₈
  obtain ⟨hedl, hfastboot, hloader⟩ := gate1_finished hgate1
  obtain ⟨hbackup, hsums⟩ := gate2_finished hgate2
  obtain ⟨hadb, hallowed⟩ := gate5_finished hgate5
  have hpre₁ := prefix_of_run hrest
  have hpre₂ := prefix_of_run hrest₂
  have hpre₇ := prefix_of_run hrest₇
  constructor
  · constructor
    · simp only [List.forall_mem_cons, List.not_mem_nil, false_implies, forall_const, and_true]
      exact ⟨hedl.mono hpre₁, hfastboot.mono hpre₁, hadb.mono hpre₇⟩
    · exact hloader.mono hpre₁
    · intro p hp
      obtain ⟨f, hf, hempty⟩ := hbackup p hp
      exact ⟨f, hf.mono hpre₂, hempty.mono hpre₂⟩
    · exact hsums.mono hpre₂
    · exact (gate3_finished hgate3).mono (prefix_of_run hrest₃)
    · exact (went_of_orExit hgate4).mono (prefix_of_run hrest₄)
    · obtain ⟨r, hr, hone⟩ := hallowed
      exact ⟨r, hpre₇.subset hr, hone⟩
    · exact confirm_finished hconfirm
  · intro p
    cases p with
    | ablA => exact (required_finished hablA).mono (prefix_of_run hrest₅)
    | ablB => exact (required_finished hablB).mono (prefix_of_run hrest₆)

end Finished

/-! ### Past a write -/

section Write

variable {contents : Image → Bytes} {sha256 : Bytes → String} {f : Command → Step}
  {w : World Step} {h h' : History Step} {part : Part} {img : Image} {u : Unit}

/-- **Past a write**: it has gone well, and so has the read after it, which begins with the
image. -/
theorem writeVerified_finished (hsha : ∀ b, sha256 b = sha256 (contents img) → b = contents img)
    (hrun : ((writeVerified contents sha256 part img).mapCalls f).run w h = (.finished u, h')) :
    ∃ r r', h' = h ++ [(f (.w part img), r), (f (.r part), r')] ∧ r.status = 0 ∧ r'.status = 0 ∧
      contents img <+: r'.output := by
  rw [writeVerified, mapCalls_bind, mapCalls_plain] at hrun
  obtain ⟨r, h₁, hwrite, hrun⟩ := bind_finished.mp hrun
  rw [mapCalls_bind, mapCalls_plain] at hrun
  obtain ⟨r', h₂, hread, hrun⟩ := bind_finished.mp hrun
  obtain ⟨rfl, hzero, rfl⟩ := plain_finished.mp hwrite
  obtain ⟨rfl, hzero', rfl⟩ := plain_finished.mp hread
  dsimp only at hrun
  split_ifs at hrun with hsame
  · obtain ⟨-, rfl⟩ := ret_finished.mp hrun
    refine ⟨_, _, List.append_assoc .., hzero, hzero', ?_⟩
    rw [List.prefix_iff_eq_take]
    exact (hsha _ (hsame.1.symm.trans (by rw [List.take_length]))).symm
  · -- the restore does not finish
    rw [mapCalls_bind] at hrun
    obtain ⟨_, h₃, -, hrun⟩ := bind_finished.mp hrun
    rw [mapCalls_bind] at hrun
    obtain ⟨_, h₄, -, hrun⟩ := bind_finished.mp hrun
    exact absurd hrun exit_finished

end Write

end UnlockBootloader

end PalmaEos
