import PalmaEos.UnlockScripts

/-!
# Unlocking through `devinfo`

`patch-devinfo-unlock.sh` reads the partition `devinfo`, sets the two bytes in it that say whether
the bootloader is unlocked, and writes it back, for devices on which the confirmation of
`fastboot flashing unlock` cannot be seen. This is the script in a world that may answer anything.

Left out is what the script prints. `cmp`, `wc`, `head`, `shasum` and `cut` on files of the host are
taken to succeed.

## Main results

* `prepare_finished` — what is known when the script gets to its write
* `run_outcome` — the five ways in which a run ends
-/

namespace PalmaEos

namespace DevinfoPatch

open Script UnlockBootloader

/-- A command of the script that asks about files, asks the operator, or reaches the device. -/
inductive Command
  /-- `[[ -d dir ]]` -/
  | isDir (dir : Bytes)
  /-- `awk -F'\t' '$1=="devinfo"{print $2;exit}' idx` -/
  | lookup (idx : Bytes)
  /-- `command -v edl` -/
  | commandV
  /-- `mkdir -p dir` -/
  | mkdir (dir : Bytes)
  /-- `edl r devinfo file`, which gives back what is in the file then. -/
  | r (file : Bytes)
  /-- `open(dst, 'wb').write(…)` -/
  | save (dst contents : Bytes)
  /-- `read` -/
  | read
  /-- `edl w devinfo file` -/
  | w (file : Bytes)
  deriving DecidableEq

def WORK (root : Bytes) : Bytes := root ++ bytes "/firmware/analysis"
def CURRENT (root : Bytes) : Bytes := WORK root ++ bytes "/devinfo-current.bin"
def PATCHED (root : Bytes) : Bytes := WORK root ++ bytes "/devinfo-patched.bin"
def VERIFY (root : Bytes) : Bytes := WORK root ++ bytes "/devinfo-verify.bin"

def OFF_UNLOCKED : ℕ := 13
def OFF_UNLOCK_CRITICAL : ℕ := 14

def magic : Bytes := bytes "ANDROID-BOOT!"

/-- The Python program: the patched contents, unless it exits with 1. It prints the byte at 15 and
so needs it to be there. -/
def patch (d : Bytes) : Option Bytes :=
  if d.take 13 = magic then
    if 15 < d.length then some ((d.set OFF_UNLOCKED 1).set OFF_UNLOCK_CRITICAL 1) else none
  else none

/-- `cmp -l a b | wc -l`, of files of the same length. -/
def differing (a b : Bytes) : ℕ := (a.zip b).countP fun p => p.1 ≠ p.2

/-- `BAK_DEVINFO`. -/
def bakDevinfo (dir : Bytes) : Script Command Bytes := do
  if dir ≠ [] then do
    orElse (.isDir dir) (exit 2)
    let hit ← plain (.lookup (IDX dir))
    if substituted hit.output ≠ [] then return dir ++ bytes "/" ++ substituted hit.output
    else exit 1
  else exit 2

/-- Reading the current contents, patching them and asking: the patched contents. -/
def patched (root : Bytes) : Script Command Bytes := do
  orElse .commandV (exit 1)
  let _ ← plain (.mkdir (WORK root))
  let current ← ask (.r (CURRENT root))
  if current.status = 0 then
    match patch current.output with
    | none => exit 1
    | some contents => do
      let _ ← plain (.save (PATCHED root) contents)
      if differing current.output contents = 2 then do
        let ans ← plain .read
        if answer ans.output = bytes "PATCH" then return contents else exit 1
      else exit 1
  else exit 1

/-- The script up to its write: the file in the backup, and the patched contents. -/
def prepare (root dir : Bytes) : Script Command (Bytes × Bytes) := do
  let bak ← bakDevinfo dir
  let contents ← patched root
  return (bak, contents)

/-- From the write on. -/
def writeDevinfo (root : Bytes) (sha256 : Bytes → String) (bak contents : Bytes) :
    Script Command Unit := do
  let _ ← plain (.w (PATCHED root))
  let verify ← ask (.r (VERIFY root))
  if verify.status = 0 then
    if sha256 (contents.take contents.length) = sha256 (verify.output.take contents.length) then
      return ()
    else do
      let _ ← plain (.w bak)
      exit 1
  else exit 1

/-- `patch-devinfo-unlock.sh <backup-dir>`. -/
def patchDevinfo (root : Bytes) (sha256 : Bytes → String) (dir : Bytes) : Script Command Unit := do
  let (bak, contents) ← prepare root dir
  writeDevinfo root sha256 bak contents

/-! ### The two bytes -/

/-- The partition with these three flags. -/
def devinfo (unlocked unlockCritical chargerScreen : UInt8) (rest : Bytes) : Bytes :=
  magic ++ unlocked :: unlockCritical :: chargerScreen :: rest

theorem differing_cons (a b : UInt8) (x y : Bytes) :
    differing (a :: x) (b :: y) = differing x y + if a = b then 0 else 1 := by
  rw [differing, List.zip_cons_cons, List.countP_cons, differing]
  by_cases hab : a = b
  · simp [hab]
  · simp [hab]

theorem differing_self (l : Bytes) : differing l l = 0 := by
  induction l with
  | nil => rfl
  | cons a l ih => rw [differing_cons, ih, if_pos rfl]

theorem differing_append (l x y : Bytes) : differing (l ++ x) (l ++ y) = differing x y := by
  induction l with
  | nil => rfl
  | cons a l ih =>
    rw [List.cons_append, List.cons_append, differing_cons, ih, if_pos rfl, Nat.add_zero]

/-- What is patched, and into what. -/
theorem patch_eq_some {d contents : Bytes} (hpatch : patch d = some contents) :
    ∃ a b c rest, d = devinfo a b c rest ∧ contents = devinfo 1 1 c rest := by
  rw [patch] at hpatch
  split_ifs at hpatch with hmagic hlen
  have hd : d = magic ++ d.drop 13 := by rw [← hmagic, List.take_append_drop]
  have hrest : 2 < (d.drop 13).length := by
    rw [List.length_drop]
    omega
  obtain ⟨a, b, c, rest, habc⟩ : ∃ a b c rest, d.drop 13 = a :: b :: c :: rest := by
    match d.drop 13, hrest with
    | a :: b :: c :: rest, _ => exact ⟨a, b, c, rest, rfl⟩
  rw [habc] at hd
  refine ⟨a, b, c, rest, hd, ?_⟩
  rw [← Option.some.inj hpatch, hd]
  rfl

/-- **Two bytes differ** exactly if neither flag byte is 1 yet. -/
theorem differing_devinfo {a b c : UInt8} {rest : Bytes} :
    differing (devinfo a b c rest) (devinfo 1 1 c rest) = 2 ↔ a ≠ 1 ∧ b ≠ 1 := by
  rw [devinfo, devinfo, differing_append, differing_cons, differing_cons, differing_self]
  split_ifs <;> simp_all

/-! ### How a run ends -/

/-- The command is no write. -/
def Quiet : Command → Prop
  | .w _ => False
  | _ => True

/-- No write to the device so far. -/
def Untouched (h : History Command) : Prop := ∀ o ∈ h, Quiet o.1

/-- **What is known at the write**: the device has given its contents, with the magic and with
neither flag byte 1; the file that is written has them with both flag bytes 1 and nothing else
changed; the backup has an entry for the partition; and the operator has typed `PATCH`. -/
structure Prepared (root dir : Bytes) (bak contents : Bytes) (h : History Command) : Prop where
  untouched : Untouched h
  read : ∃ a b c rest current, (.r (CURRENT root), current) ∈ h ∧ current.status = 0 ∧
    current.output = devinfo a b c rest ∧ contents = devinfo 1 1 c rest ∧ a ≠ 1 ∧ b ≠ 1
  saved : ∃ r, (.save (PATCHED root) contents, r) ∈ h ∧ r.status = 0
  backup : ∃ hit, (.lookup (IDX dir), hit) ∈ h ∧ substituted hit.output ≠ [] ∧
    bak = dir ++ bytes "/" ++ substituted hit.output
  typed : ∃ ans, (.read, ans) ∈ h ∧ ans.status = 0 ∧ answer ans.output = bytes "PATCH"

/-- **How a run ends.** -/
inductive Outcome (root : Bytes) (sha256 : Bytes → String) (dir : Bytes) :
    Ending Unit → History Command → Prop
  /-- It has refused, or been told to: nothing was written. -/
  | refused {status : ℕ} {h : History Command} (hstatus : status ≠ 0) (huntouched : Untouched h) :
      Outcome root sha256 dir (.exited status) h
  /-- The write has failed. -/
  | unwritten {bak contents : Bytes} {pre : History Command} {r : Reply}
      (hready : Prepared root dir bak contents pre) (hw : r.status ≠ 0) :
      Outcome root sha256 dir (.exited r.status) (pre ++ [(.w (PATCHED root), r)])
  /-- It is written, but could not be read back. -/
  | unread {bak contents : Bytes} {pre : History Command} {r r' : Reply}
      (hready : Prepared root dir bak contents pre) (hw : r.status = 0) (hr : r'.status ≠ 0) :
      Outcome root sha256 dir (.exited 1) (pre ++ [(.w (PATCHED root), r), (.r (VERIFY root), r')])
  /-- It is written, and what was read back begins with something of the same checksum. -/
  | verified {bak contents : Bytes} {pre : History Command} {r r' : Reply}
      (hready : Prepared root dir bak contents pre) (hw : r.status = 0) (hr : r'.status = 0)
      (hsame : sha256 (r'.output.take contents.length) = sha256 contents) :
      Outcome root sha256 dir (.finished ())
        (pre ++ [(.w (PATCHED root), r), (.r (VERIFY root), r')])
  /-- What was read back is something else, and the backup has been written. -/
  | restored {bak contents : Bytes} {pre : History Command} {r r' r'' : Reply} {status : ℕ}
      (hready : Prepared root dir bak contents pre) (hw : r.status = 0) (hr : r'.status = 0)
      (hdiffer : sha256 (r'.output.take contents.length) ≠ sha256 contents)
      (hstatus : status = if r''.status = 0 then 1 else r''.status) :
      Outcome root sha256 dir (.exited status)
        (pre ++ [(.w (PATCHED root), r), (.r (VERIFY root), r'), (.w bak, r'')])

section Outcome

variable {root dir bak contents : Bytes} {sha256 : Bytes → String} {w : World Command}
  {h h' : History Command} {c : Command}

theorem Untouched.after (hall : Untouched h) (hc : Quiet c) : Untouched (h.after w c) := by
  intro o ho
  rcases List.mem_append.mp ho with ho | ho
  · exact hall o ho
  · rw [List.mem_singleton.mp ho]
    exact hc

theorem prepare_calls : (prepare root dir).Calls Quiet := by
  have hbak : (bakDevinfo dir).Calls Quiet := by
    refine calls_ite ?_ (calls_exit 2)
    refine calls_bind (calls_orElse trivial (calls_exit 2)) fun _ => ?_
    exact calls_bind (calls_plain trivial) fun _ => calls_ite (calls_pure _) (calls_exit 1)
  have hpatched : (patched root).Calls Quiet := by
    refine calls_bind (calls_orElse trivial (calls_exit 1)) fun _ => ?_
    refine calls_bind (calls_plain trivial) fun _ => ?_
    refine calls_bind (calls_ask trivial) fun current => ?_
    refine calls_ite ?_ (calls_exit 1)
    cases patch current.output with
    | none => exact calls_exit 1
    | some contents =>
      refine calls_bind (calls_plain trivial) fun _ => calls_ite ?_ (calls_exit 1)
      exact calls_bind (calls_plain trivial) fun _ => calls_ite (calls_pure _) (calls_exit 1)
  exact calls_bind hbak fun _ => calls_bind hpatched fun _ => calls_pure _

theorem prepare_exits : (prepare root dir).Exits (· ≠ 0) := by
  have hone : ∀ {α : Type}, (exit 1 : Script Command α).Exits (· ≠ 0) := one_ne_zero
  have htwo : ∀ {α : Type}, (exit 2 : Script Command α).Exits (· ≠ 0) := two_ne_zero
  have hbak : (bakDevinfo dir).Exits (· ≠ 0) := by
    refine exits_ite ?_ htwo
    refine exits_bind (exits_orElse htwo) fun _ => ?_
    exact exits_bind (exits_plain _) fun _ => exits_ite (exits_pure _) hone
  have hpatched : (patched root).Exits (· ≠ 0) := by
    refine exits_bind (exits_orElse hone) fun _ => ?_
    refine exits_bind (exits_plain _) fun _ => exits_bind (exits_ask _) fun current => ?_
    refine exits_ite ?_ hone
    cases patch current.output with
    | none => exact hone
    | some contents =>
      refine exits_bind (exits_plain _) fun _ => exits_ite ?_ hone
      exact exits_bind (exits_plain _) fun _ => exits_ite (exits_pure _) hone
  exact exits_bind hbak fun _ => exits_bind hpatched fun _ => exits_pure _

theorem bakDevinfo_finished (hrun : (bakDevinfo dir).run w h = (.finished bak, h')) :
    ∃ hit, (.lookup (IDX dir), hit) ∈ h' ∧ substituted hit.output ≠ [] ∧
      bak = dir ++ bytes "/" ++ substituted hit.output := by
  obtain ⟨-, hrun⟩ := guard_finished.mp hrun
  obtain ⟨_, h₁, -, hrun⟩ := bind_finished.mp hrun
  obtain ⟨hit, h₂, hlookup, hrun⟩ := bind_finished.mp hrun
  obtain ⟨rfl, -, rfl⟩ := plain_finished.mp hlookup
  obtain ⟨hne, hrun⟩ := guard_finished.mp hrun
  obtain ⟨rfl, rfl⟩ := ret_finished.mp hrun
  exact ⟨_, List.mem_append_right h₁ (List.mem_singleton_self _), hne, rfl⟩

theorem patched_finished (hrun : (patched root).run w h = (.finished contents, h')) :
    (∃ a b c rest current, (.r (CURRENT root), current) ∈ h' ∧ current.status = 0 ∧
        current.output = devinfo a b c rest ∧ contents = devinfo 1 1 c rest ∧ a ≠ 1 ∧ b ≠ 1) ∧
      (∃ r, (.save (PATCHED root) contents, r) ∈ h' ∧ r.status = 0) ∧
      ∃ ans, (.read, ans) ∈ h' ∧ ans.status = 0 ∧ answer ans.output = bytes "PATCH" := by
  obtain ⟨_, h₁, -, hrun⟩ := bind_finished.mp hrun
  obtain ⟨_, h₂, -, hrun⟩ := bind_finished.mp hrun
  obtain ⟨current, h₃, hread, hrun⟩ := bind_finished.mp hrun
  obtain ⟨hcurrent, rfl⟩ := ask_finished.mp hread
  obtain ⟨hzero, hrun⟩ := guard_finished.mp hrun
  cases hpatch : patch current.output with
  | none =>
    rw [hpatch] at hrun
    exact absurd hrun exit_finished
  | some contents' =>
    rw [hpatch] at hrun
    obtain ⟨_, h₄, hsave, hrun⟩ := bind_finished.mp hrun
    obtain ⟨-, hsaved, rfl⟩ := plain_finished.mp hsave
    obtain ⟨htwo, hrun⟩ := guard_finished.mp hrun
    obtain ⟨ans, h₅, hask, hrun⟩ := bind_finished.mp hrun
    obtain ⟨hans, hans', rfl⟩ := plain_finished.mp hask
    obtain ⟨htyped, hrun⟩ := guard_finished.mp hrun
    obtain ⟨rfl, rfl⟩ := ret_finished.mp hrun
    obtain ⟨a, b, c, rest, hd, rfl⟩ := patch_eq_some hpatch
    rw [hd] at htwo
    obtain ⟨ha, hb⟩ := differing_devinfo.mp htwo
    refine ⟨⟨a, b, c, rest, current, ?_, hzero, hd, rfl, ha, hb⟩, ⟨_, ?_, hsaved⟩, ans, ?_, ?_,
      htyped⟩
    · rw [hcurrent]
      exact mem_after_of_mem (mem_after_of_mem mem_after)
    · exact mem_after_of_mem mem_after
    · rw [hans]
      exact mem_after
    · rw [hans]
      exact hans'

/-- **At the write.** -/
theorem prepare_finished (hrun : (prepare root dir).run w [] = (.finished (bak, contents), h')) :
    Prepared root dir bak contents h' := by
  have huntouched : Untouched h' := keeps_of_run prepare_calls (fun _ _ hc hall => hall.after hc)
    (fun _ ho => absurd ho List.not_mem_nil) hrun
  obtain ⟨bak', h₁, hbak, hrun⟩ := bind_finished.mp hrun
  obtain ⟨contents', h₂, hpatched, hrun⟩ := bind_finished.mp hrun
  obtain ⟨heq, rfl⟩ := ret_finished.mp hrun
  obtain ⟨rfl, rfl⟩ := Prod.mk.inj heq
  obtain ⟨hread, hsaved, htyped⟩ := patched_finished hpatched
  obtain ⟨hit, hhit, hbackup⟩ := bakDevinfo_finished hbak
  have hpre := run_prefix (w := w) (h := h₁) (patched root)
  rw [hpatched] at hpre
  exact ⟨huntouched, hread, hsaved, ⟨hit, hpre.subset hhit, hbackup⟩, htyped⟩

/-- **From the write on.** -/
theorem writeDevinfo_outcome (hready : Prepared root dir bak contents h) :
    Outcome root sha256 dir ((writeDevinfo root sha256 bak contents).run w h).1
      ((writeDevinfo root sha256 bak contents).run w h).2 := by
  have hafter : ∀ (h : History Command) c c', (h.after w c).after w c' =
      h ++ [(c, w h c), (c', w (h.after w c) c')] := fun _ _ _ => List.append_assoc ..
  have hafter' : ∀ (h : History Command) c c' c'', ((h.after w c).after w c').after w c'' =
      h ++ [(c, w h c), (c', w (h.after w c) c'),
        (c'', w ((h.after w c).after w c') c'')] := by
    intro h c c' c''
    rw [hafter, History.after, List.append_assoc]
    rfl
  rw [writeDevinfo, run_bind, run_plain]
  split_ifs with hw
  · show Outcome root sha256 dir (Script.run w (h.after w (.w (PATCHED root))) _).1
      (Script.run w (h.after w (.w (PATCHED root))) _).2
    rw [run_bind, ask, run, run]
    dsimp only
    split_ifs with hr hsame
    · rw [List.take_length] at hsame
      exact hafter h _ _ ▸ .verified hready hw hr hsame.symm
    · rw [List.take_length] at hsame
      rw [run_bind, run_plain]
      split_ifs with hw'
      · exact hafter' h _ _ _ ▸ .restored hready hw hr (Ne.symm hsame) (if_pos hw').symm
      · exact hafter' h _ _ _ ▸ .restored hready hw hr (Ne.symm hsame) (if_neg hw').symm
    · exact hafter h _ _ ▸ .unread hready hw hr
  · exact .unwritten hready hw

end Outcome

/-- **How `patch-devinfo-unlock.sh` ends**, whatever the commands give back. It writes nothing
unless the device has given contents with the magic and with neither flag byte 1, the backup has an
entry for the partition, and the operator has typed `PATCH`; what it writes are these contents with
both flag bytes 1, and nothing else changed. It exits with 0 only if this has been read back; if
something else was read back, it writes the file of the backup; and where the write fails or
nothing can be read back, it leaves things as they are. -/
theorem run_outcome (root dir : Bytes) (sha256 : Bytes → String) (w : World Command) :
    Outcome root sha256 dir ((patchDevinfo root sha256 dir).run w []).1
      ((patchDevinfo root sha256 dir).run w []).2 := by
  rw [patchDevinfo, run_bind]
  rcases hrun : (prepare root dir).run w [] with ⟨⟨bak, contents⟩ | status, h₁⟩
  · exact writeDevinfo_outcome (prepare_finished hrun)
  · refine .refused ?_ ?_
    · exact exited_of_exits (q := (· ≠ 0)) prepare_exits (congrArg Prod.fst hrun)
    · exact keeps_of_run prepare_calls (fun _ _ hc hall => hall.after hc)
        (fun _ ho => absurd ho List.not_mem_nil) hrun

/-- Everything goes well. -/
def kindWorld : World Command := fun _ c => match c with
  | .lookup _ => ⟨0, bytes "lun5/devinfo.bin"⟩
  | .r file => ⟨0, if file = VERIFY [] then devinfo 1 1 1 [] else devinfo 0 0 1 []⟩
  | .read => ⟨0, bytes "PATCH"⟩
  | _ => ⟨0, []⟩

example : ((patchDevinfo [] (fun b => String.ofList (Text.ascii b)) [98]).run kindWorld []).1
    = .finished () := by
  decide +kernel

end DevinfoPatch

end PalmaEos
