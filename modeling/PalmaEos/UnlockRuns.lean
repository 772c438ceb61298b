import PalmaEos.UnlockScripts

/-!
# Runs of the unlock procedure

What has to have happened before `unlock-bootloader.sh` and `edl-verify-restore.sh` write to a
partition, boot the device, tell it to unlock, or leave a receipt, in whatever order and how often
they are run, and whatever the commands give back.

The only thing taken from the world is that a receipt is not there unless one of the runs has left
it, and that no other bytes have the checksum of an image.

## Main results

* `unlock_guarded`, `verifyRestore_guarded` — one run of either script
* `session_guarded` — sessions of both
* `unlock_ends` — what the exit status of the unlock script says
-/

namespace PalmaEos

namespace UnlockBootloader

open Script

/-! ### What is needed -/

/-- The file is what was last written to the partition, and it was read back at once and found. -/
def Holds (files : Bytes → Bytes) (part : String) (file : Bytes) (h : History Step) : Prop :=
  ∃ pre r r' post, h = pre ++ (.w part file, r) :: (.r part, r') :: post ∧ r.status = 0 ∧
    r'.status = 0 ∧ files file <+: r'.output ∧ ∀ o ∈ post, ∀ file', o.1 ≠ .w part file'

/-- Both slots hold an ABL that was read back. -/
def Bootable (files : Bytes → Bytes) (h : History Step) : Prop :=
  ∀ p : Part, ∃ file, Holds files p.name file h

/-- The device tree overlay of the slot that is not active. -/
def InactiveDtbo (activeSlot : Bytes) (part : String) : Prop :=
  activeSlot = bytes "b" ∧ part = "dtbo_a" ∨ activeSlot = bytes "a" ∧ part = "dtbo_b"

/-- The write path has just been tried on the device tree overlay of the inactive slot. -/
def Proven (activeSlot : Bytes) (h : History Step) : Prop :=
  ∃ pre part src r r' r'', h = pre ++ [(.w part src, r), (.r part, r'), (.cmp src part, r'')] ∧
    InactiveDtbo activeSlot part ∧ r.status = 0 ∧ r'.status = 0 ∧ r''.status = 0

/-- **What a command of `unlock-bootloader.sh` needs behind it.** A write needs the gates, goes to a
slot of the ABL, and is of the Fairphone ABL or of what the backup has for the slot; a boot and
what it boots from need an ABL in both slots that was read back; unlocking needs the Fairphone ABL
in both and the product that it reports. -/
def UnlockNeeds (root dir : Bytes) (files : Bytes → Bytes) : Step → History Step → Prop
  | .w part file, h => Gates root dir h ∧
      ∃ p : Part, part = p.name ∧ (file = FP4_ABL root ∨ Resolves dir h p.name file)
  | .setactiveslot _, h => Bootable files h
  | .reset, h => Bootable files h
  | .adbReboot target, h => target = "edl" ∨ Bootable files h
  | .flashing what, h => (∀ p : Part, Holds files p.name (FP4_ABL root) h) ∧
      (∃ r, (.getvarProduct, r) ∈ h ∧ substituted r.output = bytes "FP4") ∧
      (what = "unlock_critical" → Went h .unlockedNow)
  | .receipt _, _ => False
  | _, _ => True

/-- **What a command of `edl-verify-restore.sh` needs behind it.** It writes only to the device tree
overlay of the slot that it takes to be inactive, and leaves its receipt, in the backup that it was
run on, when that was read back and compared. -/
def VerifyNeeds (override dir : Bytes) : Step → History Step → Prop
  | .w part _, _ => InactiveDtbo (assumedSlot override) part
  | .receipt dir', h => dir' = dir ∧ Proven (assumedSlot override) h
  | .setactiveslot _, _ => False
  | .reset, _ => False
  | .adbReboot _, _ => False
  | .flashing _, _ => False
  | _, _ => True

/-- The command only asks. -/
def Asks : Step → Prop
  | .w _ _ => False
  | .setactiveslot _ => False
  | .reset => False
  | .adbReboot _ => False
  | .flashing _ => False
  | .receipt _ => False
  | _ => True

/-- The command leaves what is flashed and what is booted from as it is. -/
def Steady : Step → Prop
  | .w _ _ => False
  | .setactiveslot _ => False
  | .reset => False
  | .flashing _ => False
  | .receipt _ => False
  | _ => True

section Needs

variable {root dir : Bytes} {files : Bytes → Bytes} {w : World Step} {h h' : History Step}
  {c : Step} {part : String} {file : Bytes}

theorem UnlockNeeds.of_asks (hc : Asks c) : UnlockNeeds root dir files c h := by
  cases c <;> trivial

/-- What comes later and does not write to the partition. -/
theorem Holds.append (hholds : Holds files part file h)
    (hnone : ∀ o ∈ h', ∀ file', o.1 ≠ .w part file') : Holds files part file (h ++ h') := by
  obtain ⟨pre, r, r', post, rfl, hzero, hzero', hfound, hlast⟩ := hholds
  refine ⟨pre, r, r', post ++ h', ?_, hzero, hzero', hfound, fun o ho => ?_⟩
  · rw [List.append_assoc]
    rfl
  · rcases List.mem_append.mp ho with ho | ho
    · exact hlast o ho
    · exact hnone o ho

theorem Holds.after (hholds : Holds files part file h) (hc : ∀ file', c ≠ .w part file') :
    Holds files part file (h.after w c) :=
  hholds.append fun o ho => by
    rw [List.mem_singleton.mp ho]
    exact hc

/-- What a write that was got past leaves behind. -/
theorem holds_of_written {r r' : Reply} (hzero : r.status = 0) (hzero' : r'.status = 0)
    (hfound : files file <+: r'.output) :
    Holds files part file (h ++ [(.w part file, r), (.r part, r')]) :=
  ⟨h, r, r', [], rfl, hzero, hzero', hfound, fun _ ho => absurd ho List.not_mem_nil⟩

/-- What is done to one partition leaves the others alone. -/
theorem Holds.other {part' : String} {file' : Bytes} {r r' : Reply}
    (hholds : Holds files part file h) (hne : part' ≠ part) :
    Holds files part file (h ++ [(.w part' file', r), (.r part', r')]) := by
  refine hholds.append fun o ho => ?_
  rcases List.mem_cons.mp ho with rfl | ho
  · exact fun file'' heq => hne (Step.w.inj heq).1
  · rw [List.mem_singleton.mp ho]
    exact nofun

end Needs

/-! ### The stages of the unlock script -/

/-- The gates are passed, and so far every command had what it needs. -/
structure Past (root dir : Bytes) (files : Bytes → Bytes) (ready : Ready) (h : History Step) :
    Prop where
  gates : Gates root dir h
  onyx : ∀ p : Part, Resolves dir h p.name (ready.file root (.onyxAbl p))
  guarded : Guarded (UnlockNeeds root dir files) h

section Stages

variable {root dir : Bytes} {files : Bytes → Bytes} {sha256 : Bytes → String} {ready : Ready}
  {w : World Step} {h h' : History Step} {c : Step} {u : Unit} {slot : String} {p part : Part}
  {img : Image}

theorem Past.after (hpast : Past root dir files ready h) (hc : UnlockNeeds root dir files c h) :
    Past root dir files ready (h.after w c) :=
  ⟨hpast.gates.mono prefix_after, fun p => (hpast.onyx p).mono prefix_after,
    hpast.guarded.after hc⟩

/-- The image may be written to the slot. -/
def Fits (part : Part) (img : Image) : Prop := img = .fp4Abl ∨ img = .onyxAbl part

theorem Past.write (hpast : Past root dir files ready h) (hfits : Fits part img) :
    UnlockNeeds root dir files (.w part.name (ready.file root img)) h := by
  refine ⟨hpast.gates, part, rfl, ?_⟩
  rcases hfits with rfl | rfl
  · exact Or.inl rfl
  · exact Or.inr (hpast.onyx part)

/-- The commands of `write_verified`: writes that fit, and reads. -/
theorem writeVerified_calls {contents : Image → Bytes} (hfits : Fits part img) :
    (writeVerified contents sha256 part img).Calls fun c =>
      (∃ part img, c = .w part img ∧ Fits part img) ∨ ∃ part, c = .r part := by
  refine calls_bind (calls_plain (Or.inl ⟨part, img, rfl, hfits⟩)) fun _ => ?_
  refine calls_bind (calls_plain (Or.inr ⟨part, rfl⟩)) fun r => ?_
  refine calls_ite (calls_pure ()) ?_
  refine calls_bind (calls_orElse (Or.inl ⟨.ablA, _, rfl, Or.inr rfl⟩) (calls_pure ())) fun _ => ?_
  exact calls_bind (calls_orElse (Or.inl ⟨.ablB, _, rfl, Or.inr rfl⟩) (calls_pure ()))
    fun _ => calls_exit 1

/-- Both slots, the active slot, and the boot: what the script does twice. -/
def bothSlots (root : Bytes) (files : Bytes → Bytes) (sha256 : Bytes → String) (ready : Ready)
    (slot : String) (img : Part → Image) : Script Step Unit := do
  let contents := fun img => files (ready.file root img)
  (writeVerified contents sha256 .ablA (img .ablA)).mapCalls (ready.step root)
  (writeVerified contents sha256 .ablB (img .ablB)).mapCalls (ready.step root)
  let _ ← plain (.setactiveslot slot)
  let _ ← plain .reset

/-- **The script**, with the swap and the restore told by what they have in common. -/
theorem unlock_eq (activeSlot : Bytes) : unlock root files sha256 activeSlot dir = (do
    let ready ← gates root activeSlot dir
    let slot := String.ofList (Text.ascii ready.activeSlot)
    orElse (.adbReboot "edl") (exit 1)
    bothSlots root files sha256 ready slot fun _ => .fp4Abl
    unlockDevice
    bothSlots root files sha256 ready slot .onyxAbl) := by
  rw [unlock]
  congr 1
  funext ready
  simp only [swap, bothSlots, mapCalls_bind, mapCalls_orElse, mapCalls_plain, Script.bind_assoc]
  rfl

/-- What is known when `bothSlots` has set the active slot. -/
theorem bothSlots_written (hsha : ∀ file b, sha256 b = sha256 (files file) → b = files file)
    {img : Part → Image} {h₁ h₂ : History Step} {u₁ u₂ : Unit}
    (hrun₁ : ((writeVerified (fun i => files (ready.file root i)) sha256 .ablA (img .ablA)).mapCalls
      (ready.step root)).run w h = (.finished u₁, h₁))
    (hrun₂ : ((writeVerified (fun i => files (ready.file root i)) sha256 .ablB (img .ablB)).mapCalls
      (ready.step root)).run w h₁ = (.finished u₂, h₂)) :
    ∃ r₁ r₁' r₂ r₂', h₂ = h ++ [(.w "abl_a" (ready.file root (img .ablA)), r₁), (.r "abl_a", r₁'),
        (.w "abl_b" (ready.file root (img .ablB)), r₂), (.r "abl_b", r₂')] ∧
      ∀ p : Part, Holds files p.name (ready.file root (img p)) h₂ := by
  obtain ⟨r₁, r₁', rfl, hzero₁, hzero₁', hfound₁⟩ := writeVerified_finished (hsha _) hrun₁
  obtain ⟨r₂, r₂', rfl, hzero₂, hzero₂', hfound₂⟩ := writeVerified_finished (hsha _) hrun₂
  refine ⟨r₁, r₁', r₂, r₂', List.append_assoc .., fun p => ?_⟩
  cases p with
  | ablA => exact (holds_of_written hzero₁ hzero₁' hfound₁).other (by decide)
  | ablB => exact holds_of_written hzero₂ hzero₂' hfound₂

/-- What has happened when `bothSlots` is through. -/
theorem bothSlots_finished (hsha : ∀ file b, sha256 b = sha256 (files file) → b = files file)
    {img : Part → Image}
    (hrun : (bothSlots root files sha256 ready slot img).run w h = (.finished u, h')) :
    ∃ r₁ r₁' r₂ r₂' r₃ r₄, h' = h ++ [(.w "abl_a" (ready.file root (img .ablA)), r₁),
        (.r "abl_a", r₁'), (.w "abl_b" (ready.file root (img .ablB)), r₂), (.r "abl_b", r₂'),
        (.setactiveslot slot, r₃), (.reset, r₄)] ∧
      ∀ p : Part, Holds files p.name (ready.file root (img p)) h' := by
  obtain ⟨_, h₁, hrun₁, hrun⟩ := bind_finished.mp hrun
  obtain ⟨_, h₂, hrun₂, hrun⟩ := bind_finished.mp hrun
  obtain ⟨r₁, r₁', r₂, r₂', rfl, hholds⟩ := bothSlots_written hsha hrun₁ hrun₂
  obtain ⟨r₃, h₃, hrun₃, hrun⟩ := bind_finished.mp hrun
  obtain ⟨r₄, h₄, hrun₄, hrun⟩ := bind_finished.mp hrun
  obtain ⟨hr₃, -, rfl⟩ := plain_finished.mp hrun₃
  obtain ⟨hr₄, -, rfl⟩ := plain_finished.mp hrun₄
  obtain ⟨-, rfl⟩ := ret_finished.mp hrun
  refine ⟨r₁, r₁', r₂, r₂', r₃, r₄, ?_, fun p => ?_⟩
  · rw [History.after, ← hr₄, History.after, ← hr₃, List.append_assoc, List.append_assoc]
    rfl
  · have hset := (hholds p).after (w := w) (c := .setactiveslot slot) (by simp)
    exact hset.after (by simp)

end Stages

/-! ### Unlocking -/

/-- Both slots hold the Fairphone ABL. -/
structure Swapped (root dir : Bytes) (files : Bytes → Bytes) (ready : Ready) (h : History Step) :
    Prop extends Past root dir files ready h where
  fp4Abl : ∀ p : Part, Holds files p.name (FP4_ABL root) h

/-- The device has said that it runs it. -/
structure Unlocking (root dir : Bytes) (files : Bytes → Bytes) (ready : Ready)
    (h : History Step) : Prop extends Swapped root dir files ready h where
  product : ∃ r, (.getvarProduct, r) ∈ h ∧ substituted r.output = bytes "FP4"

section Unlock

variable {root dir : Bytes} {files : Bytes → Bytes} {sha256 : Bytes → String} {ready : Ready}
  {w : World Step} {h h' : History Step} {c : Step} {p : Step → Prop}

theorem Swapped.after (hswap : Swapped root dir files ready h) (hc : Steady c) :
    Swapped root dir files ready (h.after w c) := by
  have hneeds : UnlockNeeds root dir files c h := by
    cases c with
    | adbReboot target => exact Or.inr fun p => ⟨_, hswap.fp4Abl p⟩
    | _ => trivial
  refine ⟨hswap.toPast.after hneeds, fun p => (hswap.fp4Abl p).after ?_⟩
  rintro file' rfl
  exact hc

theorem Unlocking.after (hun : Unlocking root dir files ready h) (hc : Steady c) :
    Unlocking root dir files ready (h.after w c) := by
  obtain ⟨r, hr, hproduct⟩ := hun.product
  exact ⟨hun.toSwapped.after hc, r, prefix_after.subset hr, hproduct⟩

theorem Unlocking.flashing {what : String} (hun : Unlocking root dir files ready h)
    (hwhat : what = "unlock_critical" → Went h .unlockedNow) :
    Unlocking root dir files ready (h.after w (.flashing what)) := by
  obtain ⟨r, hr, hproduct⟩ := hun.product
  have hneeds : UnlockNeeds root dir files (.flashing what) h :=
    ⟨hun.fp4Abl, hun.product, hwhat⟩
  exact ⟨⟨hun.toPast.after hneeds, fun p => (hun.fp4Abl p).after nofun⟩, r,
    prefix_after.subset hr, hproduct⟩

theorem waitFor_calls (hc : p c) : ∀ n, (waitFor c n).Calls p
  | 0 => calls_pure false
  | n + 1 => calls_bind (calls_ask hc) fun _ => calls_ite (calls_pure true) (waitFor_calls hc n)

theorem toBootloader_calls : toBootloader.Calls Steady := by
  refine calls_bind (calls_bind (waitFor_calls trivial 31) fun _ => ?_) fun _ => ?_
  · exact calls_ite (calls_pure ()) (calls_exit 1)
  · refine calls_bind (calls_plain trivial) fun _ => ?_
    refine calls_bind (waitFor_calls trivial 21) fun _ => ?_
    exact calls_ite (calls_pure ()) (calls_exit 1)

/-- The commands from the product on, up to the look at the state. -/
theorem Unlocking.keeps {α : Type} {s : Script Step α} {e : Ending α} {what : String}
    (hun : Unlocking root dir files ready h)
    (hwhat : what = "unlock_critical" → Went h .unlockedNow)
    (hs : s.Calls fun c => Steady c ∨ c = .flashing what) (hrun : s.run w h = (e, h')) :
    Unlocking root dir files ready h' := by
  have hkeep : ∀ h c, Steady c ∨ c = .flashing what → (Unlocking root dir files ready h ∧
      (what = "unlock_critical" → Went h .unlockedNow)) →
      Unlocking root dir files ready (h.after w c) ∧
        (what = "unlock_critical" → Went (h.after w c) .unlockedNow) := by
    rintro h c (hc | rfl) ⟨hun, hwhat⟩
    · exact ⟨hun.after hc, fun heq => (hwhat heq).mono prefix_after⟩
    · exact ⟨hun.flashing hwhat, fun heq => (hwhat heq).mono prefix_after⟩
  exact (keeps_of_run hs hkeep ⟨hun, hwhat⟩ hrun).1

theorem unlockCritical_calls :
    unlockCritical.Calls fun c => Steady c ∨ c = .flashing "unlock_critical" := by
  have hretry : retryFastboot.Calls Steady := by
    refine calls_bind (waitFor_calls trivial 31) fun _ => calls_ite ?_ (calls_pure ())
    refine calls_bind (calls_ask trivial) fun _ => calls_ite ?_ (calls_pure ())
    exact calls_bind (waitFor_calls trivial 21) fun _ => calls_pure ()
  have htry : tryFastboot.Calls Steady :=
    calls_bind (waitFor_calls trivial 21) fun _ => calls_ite (calls_pure ()) hretry
  refine calls_bind (calls_orElse (Or.inr rfl) (calls_pure ())) fun _ => ?_
  refine calls_bind (htry.mono fun _ => Or.inl) fun _ => ?_
  refine calls_bind (calls_plain (Or.inl trivial)) fun _ => ?_
  exact calls_bind (calls_plain (Or.inl trivial)) fun _ => calls_pure ()

theorem flashUnlock_calls : flashUnlock.Calls fun c => Steady c ∨ c = .flashing "unlock" := by
  have hback : backToFastboot.Calls Steady :=
    calls_bind (waitFor_calls trivial 21) fun _ => calls_ite (calls_pure ()) toBootloader_calls
  refine calls_bind (calls_plain (Or.inl trivial)) fun _ => ?_
  refine calls_bind (calls_orElse (Or.inr rfl) (calls_pure ())) fun _ => ?_
  refine calls_bind (hback.mono fun _ => Or.inl) fun _ => ?_
  exact calls_ask (Or.inl trivial)

theorem Swapped.toBootloader {e : Ending Unit} (hswap : Swapped root dir files ready h)
    (hrun : toBootloader.run w h = (e, h')) : Swapped root dir files ready h' :=
  keeps_of_run toBootloader_calls (fun _ _ hc hswap => hswap.after hc) hswap hrun

theorem Unlocking.flashUnlock {e : Ending Reply} (hun : Unlocking root dir files ready h)
    (hrun : flashUnlock.run w h = (e, h')) : Unlocking root dir files ready h' :=
  hun.keeps (fun heq => absurd heq (by decide)) flashUnlock_calls hrun

/-- The answer of the device stands at the end. -/
theorem flashUnlock_finished {r : Reply} (hrun : flashUnlock.run w h = (.finished r, h')) :
    (.unlockedNow, r) ∈ h' := by
  obtain ⟨_, h₁, -, hrun⟩ := bind_finished.mp hrun
  obtain ⟨_, h₂, -, hrun⟩ := bind_finished.mp hrun
  obtain ⟨_, h₃, -, hrun⟩ := bind_finished.mp hrun
  obtain ⟨rfl, rfl⟩ := ask_finished.mp hrun
  exact List.mem_append_right h₃ (List.mem_singleton_self _)

/-- **The middle part** keeps the Fairphone ABL in both slots. -/
theorem Swapped.unlockDevice {e : Ending Unit} (hswap : Swapped root dir files ready h)
    (hrun : unlockDevice.run w h = (e, h')) : Swapped root dir files ready h' := by
  have hkept : Swapped root dir files ready (UnlockBootloader.unlockDevice.run w h).2 := by
    refine run_bind_keeps (hswap.toBootloader Prod.mk.eta.symm) fun _ h₁ hrun₁ => ?_
    have hswap₁ := hswap.toBootloader hrun₁
    have hswap₂ : Swapped root dir files ready (h₁.after w .getvarProduct) := hswap₁.after trivial
    refine run_bind_keeps (by rwa [plain_history]) fun product h₂ hrun₂ => ?_
    obtain ⟨hr, -, rfl⟩ := plain_finished.mp hrun₂
    split_ifs with hproduct
    · have hun : Unlocking root dir files ready (h₁.after w .getvarProduct) :=
        ⟨hswap₂, product, hr ▸ List.mem_append_right h₁ (List.mem_singleton_self _), hproduct⟩
      refine run_bind_keeps (hun.flashUnlock Prod.mk.eta.symm).toSwapped
        fun unlocked h₃ hrun₃ => ?_
      have hun₃ := hun.flashUnlock hrun₃
      split_ifs with hyes
      · have hwent : Went h₃ .unlockedNow := ⟨unlocked, flashUnlock_finished hrun₃, hyes⟩
        exact (hun₃.keeps (fun _ => hwent) unlockCritical_calls Prod.mk.eta.symm).toSwapped
      · have hswap₄ : Swapped root dir files ready (h₃.after w .deviceInfo) :=
          hun₃.toSwapped.after trivial
        refine run_bind_keeps (by rwa [plain_history]) fun _ h₄ hrun₄ => ?_
        obtain ⟨-, -, rfl⟩ := plain_finished.mp hrun₄
        exact hswap₄
    · exact hswap₂
  rwa [hrun] at hkept

/-- It is through only if the device has said that it is unlocked. -/
theorem unlockDevice_finished {u : Unit} (hrun : unlockDevice.run w h = (.finished u, h')) :
    (∃ r, (.getvarProduct, r) ∈ h' ∧ substituted r.output = bytes "FP4") ∧
      Went h' .unlockedNow := by
  obtain ⟨_, h₁, -, hrun⟩ := bind_finished.mp hrun
  obtain ⟨product, h₂, hrun₂, hrun⟩ := bind_finished.mp hrun
  obtain ⟨hproduct, hrun⟩ := guard_finished.mp hrun
  have hpre := prefix_of_run hrun
  obtain ⟨unlocked, h₃, hrun₃, hrun⟩ := bind_finished.mp hrun
  refine ⟨⟨product, hpre.subset (mem_of_plain hrun₂).1, hproduct⟩, ?_⟩
  split_ifs at hrun with hyes
  · exact ⟨unlocked, (prefix_of_run hrun).subset (flashUnlock_finished hrun₃), hyes⟩
  · obtain ⟨_, h₄, -, hrun⟩ := bind_finished.mp hrun
    exact absurd hrun exit_finished

end Unlock

/-! ### One run -/

section Runs

variable {root dir activeSlot : Bytes} {files : Bytes → Bytes} {sha256 : Bytes → String}
  {w : World Step} {h h' : History Step} {name : String}

theorem resolvePart_calls : (resolvePart dir name).Calls Asks :=
  calls_bind (calls_ask trivial) fun _ => calls_ite (calls_pure none) (calls_pure _)

theorem required_calls : (required dir name).Calls Asks := by
  refine calls_bind resolvePart_calls fun found => ?_
  cases found with
  | none => exact calls_exit 1
  | some f => exact calls_pure f

theorem checkParts_calls : ∀ ps, (checkParts dir ps).Calls Asks
  | [] => calls_pure ()
  | _ :: ps => calls_bind required_calls fun _ =>
      calls_bind (calls_orElse trivial (calls_exit 1)) fun _ => checkParts_calls ps

theorem gate5_calls : gate5.Calls Asks := by
  refine calls_bind (calls_orElse trivial (calls_exit 1)) fun _ => ?_
  refine calls_bind (calls_orElse trivial (calls_exit 1)) fun _ => ?_
  refine calls_bind (calls_plain trivial) fun _ => ?_
  refine calls_bind (calls_plain trivial) fun _ => ?_
  refine calls_bind (calls_plain trivial) fun _ => calls_ite ?_ (calls_exit 1)
  refine calls_ite ?_ (calls_pure _)
  exact calls_bind (calls_plain trivial) fun _ => calls_ite (calls_pure _) (calls_exit 0)

/-- The gates only ask. -/
theorem gates_calls : (gates root activeSlot dir).Calls Asks := by
  have hcheck : ∀ {c}, Asks c → (orElse c (exit 1)).Calls Asks :=
    fun hc => calls_orElse hc (calls_exit 1)
  refine calls_ite ?_ (calls_exit 2)
  refine calls_bind (hcheck trivial) fun _ => ?_
  refine calls_bind (calls_bind (hcheck trivial) fun _ =>
    calls_bind (hcheck trivial) fun _ => hcheck trivial) fun _ => ?_
  refine calls_bind (calls_bind (hcheck trivial) fun _ =>
    calls_bind (checkParts_calls critical) fun _ =>
      calls_bind (hcheck trivial) fun _ => hcheck trivial) fun _ => ?_
  refine calls_bind (calls_bind (hcheck trivial) fun _ =>
    calls_bind (calls_plain trivial) fun _ => calls_pure ()) fun _ => ?_
  refine calls_bind (hcheck trivial) fun _ => ?_
  refine calls_bind required_calls fun _ => calls_bind required_calls fun _ => ?_
  refine calls_bind gate5_calls fun _ => ?_
  refine calls_bind (calls_bind (calls_plain trivial) fun _ => ?_) fun _ => calls_pure _
  exact calls_ite (calls_pure ()) (calls_exit 1)

theorem VerifyNeeds.of_asks {override : Bytes} {c : Step} (hc : Asks c) :
    VerifyNeeds override dir c h := by
  cases c <;> trivial

theorem resolveOrFind_calls : (resolveOrFind dir name).Calls Asks := by
  have hindexed : (resolveIndexed dir name).Calls Asks :=
    calls_bind (calls_ask trivial) fun _ => calls_ite resolvePart_calls (calls_pure none)
  refine calls_bind hindexed fun found => ?_
  cases found with
  | some f => exact calls_pure (some f)
  | none =>
    exact calls_bind (calls_ask trivial) fun _ => calls_ite (calls_pure none) (calls_pure _)

theorem testPart_inactive {slot : Bytes} {part : String} (hpart : testPart slot = some part) :
    InactiveDtbo slot part := by
  rw [testPart] at hpart
  split_ifs at hpart with hb ha
  · exact Or.inl ⟨hb, (Option.some.inj hpart).symm⟩
  · exact Or.inr ⟨ha, (Option.some.inj hpart).symm⟩

end Runs

/-! ### Sessions -/

/-- A run of either script. -/
inductive Run where
  | verifyRestore (override dir : Bytes)
  | unlock (activeSlot dir : Bytes)

def Run.script (root : Bytes) (files : Bytes → Bytes) (sha256 : Bytes → String) :
    Run → Script Step Unit
  | verifyRestore override dir => UnlockBootloader.verifyRestore files override dir
  | unlock activeSlot dir => UnlockBootloader.unlock root files sha256 activeSlot dir

/-- One run after the other. -/
def session (root : Bytes) (files : Bytes → Bytes) (sha256 : Bytes → String) (w : World Step) :
    List Run → History Step → History Step
  | [], h => h
  | run :: runs, h => session root files sha256 w runs ((run.script root files sha256).run w h).2

/-- The runs of a session, each with what it did, when `h` has happened before. -/
def parts (root : Bytes) (files : Bytes → Bytes) (sha256 : Bytes → String) (w : World Step) :
    List Run → History Step → List (Run × History Step)
  | [], _ => []
  | run :: runs, h =>
    let own := ((run.script root files sha256).run (w.since h) []).2
    (run, own) :: parts root files sha256 w runs (h ++ own)

/-- One of the runs was of `edl-verify-restore.sh` on the same backup, and left its receipt. -/
def ReceiptLeft (same : Bytes → Bytes → Prop) (dir : Bytes) (before : List (Run × History Step)) :
    Prop :=
  ∃ override dir' own r, (.verifyRestore override dir', own) ∈ before ∧ same dir dir' ∧
    (.receipt dir', r) ∈ own

/-- **What a command of a run needs**, behind it in the run: what its script needs, and a write of
the unlock script needs a receipt from one of the runs before. -/
def Run.Needs (root : Bytes) (files : Bytes → Bytes) (same : Bytes → Bytes → Prop)
    (before : List (Run × History Step)) : Run → Step → History Step → Prop
  | verifyRestore override dir, c, own => VerifyNeeds override dir c own
  | unlock _ dir, c, own => UnlockNeeds root dir files c own ∧
      ∀ part file, c = .w part file → ReceiptLeft same dir before

/-- Every run so far had what it needs. -/
def AllGuarded (root : Bytes) (files : Bytes → Bytes) (same : Bytes → Bytes → Prop)
    (runs : List (Run × History Step)) : Prop :=
  ∀ before run own after, runs = before ++ (run, own) :: after →
    Guarded (run.Needs root files same before) own

section Sessions

variable {root : Bytes} {files : Bytes → Bytes} {sha256 : Bytes → String}
  {same : Bytes → Bytes → Prop} {w : World Step} {before : List (Run × History Step)}

/-- What a session did is what its runs did, one after the other. -/
theorem session_eq (runs : List Run) (h : History Step) : session root files sha256 w runs h
    = h ++ (parts root files sha256 w runs h).flatMap Prod.snd := by
  induction runs generalizing h with
  | nil => exact (List.append_nil h).symm
  | cons run runs ih =>
    have hrun := run_since (w := w) (h := []) h (run.script root files sha256)
    rw [List.append_nil] at hrun
    rw [session, hrun, ih, parts, List.flatMap_cons, List.append_assoc]

theorem AllGuarded.concat {run : Run} {own : History Step}
    (hall : AllGuarded root files same before)
    (hthis : Guarded (run.Needs root files same before) own) :
    AllGuarded root files same (before ++ [(run, own)]) := by
  intro before' run' own' after hsplit
  rcases split_concat.mp hsplit with ⟨-, rfl, ho⟩ | ⟨after', -, hsplit⟩
  · obtain ⟨rfl, rfl⟩ := Prod.mk.inj ho
    exact hthis
  · exact hall before' run' own' after' hsplit

/-- A receipt comes from a run of the verifying script on its backup. -/
theorem AllGuarded.receipt {run : Run} {own : History Step} {dir : Bytes} {r : Reply}
    (hall : AllGuarded root files same before) (hrun : (run, own) ∈ before)
    (hr : (.receipt dir, r) ∈ own) : ∃ override, run = .verifyRestore override dir := by
  obtain ⟨before', after, rfl⟩ := List.append_of_mem hrun
  obtain ⟨pre, post, rfl⟩ := List.append_of_mem hr
  have hneeds := hall before' run _ after rfl pre (.receipt dir) r post rfl
  cases run with
  | verifyRestore override dir' =>
    obtain ⟨rfl, -⟩ : dir = dir' ∧ _ := hneeds
    exact ⟨override, rfl⟩
  | unlock activeSlot dir' => exact hneeds.1.elim

end Sessions

/-- Every image is the text `a`. -/
def allSame : Bytes → Bytes := fun _ => [97]

/-- Everything goes well, and there is a receipt where one was left. -/
def kindWorld : World Step := fun h c => match c with
  | .isFile path =>
    if h.any fun o => match o.1 with
      | .receipt dir => GATE3_PASS dir = path
      | _ => false
    then ⟨0, []⟩
    else if path.reverse.take 2 = [83, 83] then ⟨1, []⟩ else ⟨0, []⟩
  | .lookup _ _ => ⟨0, [120]⟩
  | .getprop _ => ⟨0, bytes "1"⟩
  | .read => ⟨0, bytes "UNLOCK"⟩
  | .getvarProduct => ⟨0, bytes "FP4"⟩
  | .r _ => ⟨0, [97, 0]⟩
  | _ => ⟨0, []⟩

theorem smallSha256_injective (file b : Bytes)
    (hsame : smallSha256 b = smallSha256 (allSame file)) : b = allSame file := by
  by_contra hne
  have hother : b ≠ [97] := hne
  rw [smallSha256, if_neg hother, smallSha256, allSame, if_pos rfl] at hsame
  exact absurd hsame (by decide)

/-- A backup in a directory of one letter. -/
def smallSession : List Run := [.verifyRestore [] [98], .unlock [] [98]]

section Exits

variable {root : Bytes} {files : Bytes → Bytes} {sha256 : Bytes → String} {ready : Ready}

theorem waitFor_exits {q : ℕ → Prop} (c : Step) : ∀ n, (waitFor c n).Exits q
  | 0 => exits_pure false
  | n + 1 => exits_bind (exits_ask c) fun _ => exits_ite (exits_pure true) (waitFor_exits c n)

theorem exits_one {α : Type} : (exit 1 : Script Step α).Exits (· ≠ 0) := one_ne_zero

theorem toBootloader_exits : toBootloader.Exits (· ≠ 0) := by
  have horDie : ∀ c n, (orDie (waitFor c n)).Exits (· ≠ 0) := fun c n =>
    exits_bind (waitFor_exits c n) fun _ => exits_ite (exits_pure ()) exits_one
  exact exits_bind (horDie _ 31) fun _ => exits_bind (exits_plain _) fun _ => horDie _ 21

theorem bothSlots_exits {slot : String} {img : Part → Image} :
    (bothSlots root files sha256 ready slot img).Exits (· ≠ 0) := by
  have hwrite : ∀ part img, ((writeVerified (fun i => files (ready.file root i)) sha256 part
      img).mapCalls (ready.step root)).Exits (· ≠ 0) := by
    intro part img
    refine exits_mapCalls (exits_bind (exits_plain _) fun _ => ?_)
    refine exits_bind (exits_plain _) fun _ => exits_ite (exits_pure ()) ?_
    exact exits_bind (exits_orElse (exits_pure ())) fun _ =>
      exits_bind (exits_orElse (exits_pure ())) fun _ => one_ne_zero
  refine exits_bind (hwrite _ _) fun _ => exits_bind (hwrite _ _) fun _ => ?_
  exact exits_bind (exits_plain _) fun _ => exits_bind (exits_plain _) fun _ => exits_pure ()

theorem unlockDevice_exits : unlockDevice.Exits (· ≠ 0) := by
  refine exits_bind toBootloader_exits fun _ => exits_bind (exits_plain _) fun _ => ?_
  refine exits_ite (exits_bind ?_ fun _ => exits_ite ?_ ?_) exits_one
  · refine exits_bind (exits_plain _) fun _ => exits_bind (exits_orElse (exits_pure ())) fun _ => ?_
    refine exits_bind (exits_bind (waitFor_exits _ 21) fun _ => ?_) fun _ => exits_ask _
    exact exits_ite (exits_pure ()) toBootloader_exits
  · refine exits_bind (exits_orElse (exits_pure ())) fun _ => exits_bind ?_ fun _ => ?_
    · refine exits_bind (waitFor_exits _ 21) fun _ => exits_ite (exits_pure ()) ?_
      refine exits_bind (waitFor_exits _ 31) fun _ => exits_ite ?_ (exits_pure ())
      refine exits_bind (exits_ask _) fun _ => exits_ite ?_ (exits_pure ())
      exact exits_bind (waitFor_exits _ 21) fun _ => exits_pure ()
    · exact exits_bind (exits_plain _) fun _ => exits_bind (exits_plain _) fun _ => exits_pure ()
  · exact exits_bind (exits_plain _) fun _ => exits_one

end Exits

/-- The operator declines where the device is unlocked already. -/
def declinedWorld : World Step := fun h c => match c with
  | .getprop name => ⟨0, bytes (if name = "ro.boot.flash.locked" then "0" else "1")⟩
  | .read => ⟨0, bytes "n"⟩
  | .isFile _ => ⟨0, []⟩
  | c => kindWorld h c

/-- The session, from the receipt on. -/
def receiptWorld : World Step := kindWorld.since [(.receipt [98], ⟨0, []⟩)]

/-- **What the exit status says.** When the unlock script exits with 0 before its end, it has only
asked: nothing was written, rebooted or flashed. When it reaches its end, the last it has done is to
write what the backup has for each slot to that slot, to read it back and find it, to set the
active slot and to boot; and before, the device had reported the product of the Fairphone ABL and
that it was unlocked. -/
theorem unlock_ends (root dir activeSlot : Bytes) (files : Bytes → Bytes) (sha256 : Bytes → String)
    (w : World Step) (hsha : ∀ file b, sha256 b = sha256 (files file) → b = files file) :
    (∀ h, (unlock root files sha256 activeSlot dir).run w [] = (.exited 0, h) →
      ∀ o ∈ h, Asks o.1) ∧
    ∀ u h, (unlock root files sha256 activeSlot dir).run w [] = (.finished u, h) →
      ∃ pre onyxAblA onyxAblB slot r₁ r₁' r₂ r₂' r₃ r₄,
        h = pre ++ [(.w "abl_a" onyxAblA, r₁), (.r "abl_a", r₁'), (.w "abl_b" onyxAblB, r₂),
          (.r "abl_b", r₂'), (.setactiveslot slot, r₃), (.reset, r₄)] ∧
        Resolves dir pre "abl_a" onyxAblA ∧ Holds files "abl_a" onyxAblA h ∧
        Resolves dir pre "abl_b" onyxAblB ∧ Holds files "abl_b" onyxAblB h ∧
        (∃ r, (.getvarProduct, r) ∈ pre ∧ substituted r.output = bytes "FP4") ∧
        Went pre .unlockedNow := by
  rw [unlock_eq]
  constructor
  · intro h hrun
    have hkeep : ∀ (h : History Step) c, Asks c → (∀ o ∈ h, Asks o.1) →
        ∀ o ∈ h.after w c, Asks o.1 := by
      intro h c hc hall o ho
      rcases List.mem_append.mp ho with ho | ho
      · exact hall o ho
      · rw [List.mem_singleton.mp ho]
        exact hc
    rw [run_bind] at hrun
    rcases hgates : (gates root activeSlot dir).run w [] with ⟨ready | status, h₁⟩
    · -- past the gates nothing exits with 0
      rw [hgates] at hrun
      refine absurd rfl (exited_of_exits (q := (· ≠ 0)) ?_ (congrArg Prod.fst hrun))
      exact exits_bind (exits_orElse exits_one) fun _ => exits_bind bothSlots_exits fun _ =>
        exits_bind unlockDevice_exits fun _ => bothSlots_exits
    · rw [hgates] at hrun
      obtain ⟨-, rfl⟩ := Prod.mk.inj hrun
      exact keeps_of_run gates_calls hkeep (fun o ho => absurd ho List.not_mem_nil) hgates
  · intro u h hrun
    obtain ⟨ready, h₁, hrun₁, hrun⟩ := bind_finished.mp hrun
    obtain ⟨_, h₂, hrun₂, hrun⟩ := bind_finished.mp hrun
    obtain ⟨_, h₃, hrun₃, hrun⟩ := bind_finished.mp hrun
    obtain ⟨_, h₄, hrun₄, hrun⟩ := bind_finished.mp hrun
    have hpre : h₁ <+: h₄ :=
      (prefix_of_run hrun₂).trans ((prefix_of_run hrun₃).trans (prefix_of_run hrun₄))
    have honyx := (gates_finished hrun₁).2
    obtain ⟨hproduct, hunlocked⟩ := unlockDevice_finished hrun₄
    obtain ⟨r₁, r₁', r₂, r₂', r₃, r₄, hh, hholds⟩ := bothSlots_finished hsha hrun
    exact ⟨h₄, _, _, _, r₁, r₁', r₂, r₂', r₃, r₄, hh, (honyx .ablA).mono hpre, hholds .ablA,
      (honyx .ablB).mono hpre, hholds .ablB, hproduct, hunlocked⟩

theorem unlock_ends_small :
    (∃ h, (unlock [] allSame smallSha256 [] [98]).run declinedWorld [] = (.exited 0, h) ∧
      ∀ o ∈ h, Asks o.1) ∧
    ∃ u h file, (unlock [] allSame smallSha256 [] [98]).run receiptWorld [] = (.finished u, h) ∧
      Holds allSame "abl_b" file h := by
  have hdeclined : ((unlock [] allSame smallSha256 [] [98]).run declinedWorld []).1
      = .exited 0 := by
    decide +kernel
  have hthrough : ((unlock [] allSame smallSha256 [] [98]).run receiptWorld []).1
      = .finished () := by
    decide +kernel
  have hends := unlock_ends [] [98] [] allSame smallSha256 declinedWorld smallSha256_injective
  have hends' := unlock_ends [] [98] [] allSame smallSha256 receiptWorld smallSha256_injective
  constructor
  · have hrun : (unlock [] allSame smallSha256 [] [98]).run declinedWorld [] = (.exited 0, _) :=
      Prod.ext hdeclined rfl
    exact ⟨_, hrun, hends.1 _ hrun⟩
  · have hrun : (unlock [] allSame smallSha256 [] [98]).run receiptWorld [] = (.finished (), _) :=
      Prod.ext hthrough rfl
    obtain ⟨pre, a, b, slot, r₁, r₁', r₂, r₂', r₃, r₄, -, -, -, -, hholds, -⟩ := hends'.2 _ _ hrun
    exact ⟨(), _, b, hrun, hholds⟩

end UnlockBootloader

end PalmaEos
