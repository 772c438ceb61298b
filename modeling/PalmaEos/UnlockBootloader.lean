import PalmaEos.Lib.Runs
import PalmaEos.Lib.Shell

/-!
# The bootloader swap

`unlock-bootloader.sh` writes the Fairphone ABL to both slots, each write read back and compared,
before it boots from it. If the comparison fails, it restores Onyx's ABL to both slots. But the
script runs under `set -e`: a write or a read that fails ends it inside `write_verified`, before the
comparison and the restore that depends on it.

Modelled is the span from the confirmation to the first `reset`. The commands on the host that only
handle files there (`wc`, `head`, `shasum`, `cut`, `mktemp`) are taken to succeed; `sha256` stands
for what `shasum -a 256 | cut` prints.

## Main results

* `writeVerified_cases` — the four ways in which one slot goes
* `swapSafe_iff` — an abort leaves both slots restored exactly when no write and no read before the
  comparison fails
-/

namespace PalmaEos

namespace UnlockBootloader

/-- `abl_a` or `abl_b` -/
inductive Part
  | ablA
  | ablB
  deriving DecidableEq

/-- An image file: `FP4_ABL`, or Onyx's ABL of a slot from the backup. -/
inductive Image
  | fp4Abl
  | onyxAbl (part : Part)
  deriving DecidableEq

/-- A command of the span that reaches the device. -/
inductive Command
  /-- `adb reboot edl` -/
  | rebootEdl
  /-- `edl w part img` -/
  | w (part : Part) (img : Image)
  /-- `edl r part file`, which gives back what is in the file then. -/
  | r (part : Part)
  /-- `edl setactiveslot slot` -/
  | setactiveslot (slot : String)
  /-- `edl reset` -/
  | reset
  deriving DecidableEq

open Script

/-- `die`, whatever the message. -/
def die {α : Type} : Script Command α := .exit 1

/-- `write_verified`. -/
def writeVerified (contents : Image → List UInt8) (sha256 : List UInt8 → String) (part : Part)
    (img : Image) : Script Command Unit := do
  let size := (contents img).length
  let _ ← plain (.w part img)
  let readBack ← plain (.r part)
  let shaSrc := sha256 ((contents img).take size)
  let shaDst := sha256 (readBack.output.take size)
  if shaSrc = shaDst ∧ shaSrc ≠ "" then
    pure ()
  else do
    orTrue (.w .ablA (.onyxAbl .ablA))
    orTrue (.w .ablB (.onyxAbl .ablB))
    die

/-- The script from the confirmation to the first `reset`. -/
def swap (contents : Image → List UInt8) (sha256 : List UInt8 → String) (activeSlot : String) :
    Script Command Unit := do
  orElse .rebootEdl die
  writeVerified contents sha256 .ablA .fp4Abl
  writeVerified contents sha256 .ablB .fp4Abl
  let _ ← plain (.setactiveslot activeSlot)
  let _ ← plain .reset

/-! ### What the swap is to guarantee -/

/-- A write of the Fairphone ABL is started. -/
def Starts (o : Command × Reply) : Prop := ∃ part, o.1 = .w part .fp4Abl

/-- A write of Onyx's ABL to the slot is attempted. -/
def Restores (o : Command × Reply) (part : Part) : Prop := o.1 = .w part (.onyxAbl part)

/-- The active slot is set: the span is over. -/
def SlotSet (h : History Command) : Prop := ∃ o ∈ h, ∃ slot, o.1 = .setactiveslot slot

/-- **No foreign bootloader is left unrepaired.** If the script ends before it sets the active slot,
both of Onyx's images have been written after the last write of the Fairphone ABL; and it sets the
slot only if what was read back of both begins with the Fairphone ABL. -/
structure SwapSafe (contents : Image → List UInt8) (h : History Command) : Prop where
  repaired : ¬ SlotSet h → ∀ part, ¬ Owed (fun o (_ : Part) => Starts o) Restores h part
  verified : SlotSet h → ∀ part, (∃ reply, (.r part, reply) ∈ h) ∧
    ∀ reply, (.r part, reply) ∈ h → contents .fp4Abl <+: reply.output

/-- What has happened when the Fairphone ABL has been written to a slot, and when it has been read
back. -/
def written (w : World Command) (h : History Command) (part : Part) : History Command :=
  h.after w (.w part .fp4Abl)

def readBack (w : World Command) (h : History Command) (part : Part) : History Command :=
  (written w h part).after w (.r part)

/-- The write to a slot and the read after it succeed. -/
def Goes (w : World Command) (h : History Command) (part : Part) : Prop :=
  (w h (.w part .fp4Abl)).status = 0 ∧ (w (written w h part) (.r part)).status = 0

/-- What is read back begins with the Fairphone ABL. -/
def Matches (contents : Image → List UInt8) (w : World Command) (h : History Command)
    (part : Part) : Prop :=
  contents .fp4Abl <+: (w (written w h part) (.r part)).output

instance (contents : Image → List UInt8) (w : World Command) (h : History Command) (part : Part) :
    Decidable (Matches contents w h part) := inferInstanceAs (Decidable (_ <+: _))

section Swap

variable {contents : Image → List UInt8} {sha256 : List UInt8 → String} {w : World Command}
  {h : History Command}

/-- The two writes of the restore. -/
def restored (w : World Command) (h : History Command) : History Command :=
  (h.after w (.w .ablA (.onyxAbl .ablA))).after w (.w .ablB (.onyxAbl .ablB))

/-- **How one slot goes**: the write fails, or the read, or the comparison, or nothing. -/
theorem writeVerified_cases (part : Part)
    (hsha : ∀ b, sha256 b = sha256 (contents .fp4Abl) → b = contents .fp4Abl)
    (hne : ∀ b, sha256 b ≠ "") :
    (¬ Goes w h part ∧ ∃ status, (writeVerified contents sha256 part .fp4Abl).run w h
        = (.exited status, written w h part)) ∨
    (¬ Goes w h part ∧ ∃ status, (writeVerified contents sha256 part .fp4Abl).run w h
        = (.exited status, readBack w h part)) ∨
    (Goes w h part ∧ ¬ Matches contents w h part ∧
      (writeVerified contents sha256 part .fp4Abl).run w h
        = (.exited 1, restored w (readBack w h part))) ∨
    (Goes w h part ∧ Matches contents w h part ∧
      (writeVerified contents sha256 part .fp4Abl).run w h
        = (.finished (), readBack w h part)) := by
  have hcompare : (sha256 ((contents .fp4Abl).take (contents .fp4Abl).length)
        = sha256 ((w (written w h part) (.r part)).output.take (contents .fp4Abl).length) ∧
      sha256 ((contents .fp4Abl).take (contents .fp4Abl).length) ≠ "") ↔
        Matches contents w h part := by
    rw [List.take_length, Matches, List.prefix_iff_eq_take]
    constructor
    · intro heq
      exact (hsha _ heq.1.symm).symm
    · intro heq
      rw [← heq]
      exact ⟨rfl, hne _⟩
  rw [writeVerified, run_bind, run_plain, ← written]
  by_cases hwrite : (w h (.w part .fp4Abl)).status = 0
  · rw [if_pos hwrite]
    dsimp only
    rw [run_bind, run_plain, ← readBack]
    by_cases hread : (w (written w h part) (.r part)).status = 0
    · rw [if_pos hread]
      dsimp only
      by_cases hmatch : Matches contents w h part
      · rw [if_pos (hcompare.mpr hmatch)]
        exact Or.inr (Or.inr (Or.inr ⟨⟨hwrite, hread⟩, hmatch, rfl⟩))
      · rw [if_neg (mt hcompare.mp hmatch), run_bind, run_orTrue]
        dsimp only
        rw [run_bind, run_orTrue]
        exact Or.inr (Or.inr (Or.inl ⟨⟨hwrite, hread⟩, hmatch, rfl⟩))
    · rw [if_neg hread]
      exact Or.inr (Or.inl ⟨fun hgoes => hread hgoes.2, _, rfl⟩)
  · rw [if_neg hwrite]
    exact Or.inl ⟨fun hgoes => hwrite hgoes.1, _, rfl⟩

/-! ### What is owed after each step -/

theorem owed_after {c : Command} {part : Part} :
    Owed (fun o (_ : Part) => Starts o) Restores (h.after w c) part ↔
      (∃ p, c = .w p .fp4Abl) ∨
        Owed (fun o (_ : Part) => Starts o) Restores h part ∧ c ≠ .w part (.onyxAbl part) :=
  owed_concat

theorem slotSet_after {c : Command} :
    SlotSet (h.after w c) ↔ SlotSet h ∨ ∃ slot, c = .setactiveslot slot := by
  simp [SlotSet, History.after, or_and_right, exists_or]

/-- A slot that is written and not restored is left with the Fairphone ABL. -/
theorem owed_written (part p : Part) :
    Owed (fun o (_ : Part) => Starts o) Restores (written w h part) p :=
  owed_after.mpr (Or.inl ⟨part, rfl⟩)

theorem owed_readBack (part p : Part) :
    Owed (fun o (_ : Part) => Starts o) Restores (readBack w h part) p :=
  owed_after.mpr (Or.inr ⟨owed_written part p, nofun⟩)

/-- The restore leaves nothing owed, whether its writes succeed or not. -/
theorem not_owed_restored (p : Part) :
    ¬ Owed (fun o (_ : Part) => Starts o) Restores (restored w h) p := by
  rw [restored, owed_after, owed_after]
  cases p with
  | ablA => simp
  | ablB => simp

theorem not_slotSet_readBack (hset : ¬ SlotSet h) (part : Part) :
    ¬ SlotSet (written w h part) ∧ ¬ SlotSet (readBack w h part) := by
  have hwritten : ¬ SlotSet (written w h part) := by
    rw [written, slotSet_after]
    simp [hset]
  refine ⟨hwritten, ?_⟩
  rw [readBack, slotSet_after]
  simp [hwritten]

theorem not_slotSet_restored (hset : ¬ SlotSet h) : ¬ SlotSet (restored w h) := by
  rw [restored, slotSet_after, slotSet_after]
  simp [hset]

theorem swapSafe_of_not_slotSet (hset : ¬ SlotSet h) : SwapSafe contents h ↔
    ∀ part, ¬ Owed (fun o (_ : Part) => Starts o) Restores h part :=
  ⟨fun hsafe => hsafe.repaired hset, fun howed => ⟨fun _ => howed, fun hyes => absurd hyes hset⟩⟩

/-- A failed write or read leaves a slot owed. -/
theorem not_swapSafe_of_fails (hset : ¬ SlotSet h) (part : Part) :
    ¬ SwapSafe contents (written w h part) ∧ ¬ SwapSafe contents (readBack w h part) := by
  obtain ⟨hwritten, hread⟩ := not_slotSet_readBack (w := w) hset part
  rw [swapSafe_of_not_slotSet hwritten, swapSafe_of_not_slotSet hread]
  exact ⟨fun hno => hno part (owed_written part part),
    fun hno => hno part (owed_readBack part part)⟩

/-- A restore keeps the guarantee. -/
theorem swapSafe_restored (hset : ¬ SlotSet h) : SwapSafe contents (restored w h) :=
  (swapSafe_of_not_slotSet (not_slotSet_restored hset)).mpr not_owed_restored

/-- What has happened when the device has been sent into EDL. -/
def inEdl (w : World Command) : History Command := History.after w [] .rebootEdl

theorem not_slotSet_inEdl : ¬ SlotSet (inEdl w) := by
  rw [inEdl, slotSet_after]
  simp [SlotSet]

/-- What has happened when both slots have been written and read back. -/
def bothRead (w : World Command) : History Command :=
  readBack w (readBack w (inEdl w) .ablA) .ablB

/-- What was read back of the two slots. -/
theorem mem_bothRead (part : Part) (reply : Reply) : (.r part, reply) ∈ bothRead w ↔
    match part with
    | .ablA => reply = w (written w (inEdl w) .ablA) (.r .ablA)
    | .ablB => reply = w (written w (readBack w (inEdl w) .ablA) .ablB) (.r .ablB) := by
  cases part with
  | ablA => simp [bothRead, readBack, written, inEdl, History.after]
  | ablB => simp [bothRead, readBack, written, inEdl, History.after]

theorem mem_after_of_ne {c : Command} {part : Part} {reply : Reply} (hc : c ≠ .r part) :
    (.r part, reply) ∈ h.after w c ↔ (.r part, reply) ∈ h := by
  simp [History.after, hc.symm]

/-- Two slots that match keep the guarantee, whatever comes after them. -/
theorem swapSafe_of_matches (ha : Matches contents w (inEdl w) .ablA)
    (hb : Matches contents w (readBack w (inEdl w) .ablA) .ablB) {h' : History Command}
    (hset : SlotSet h')
    (hreads : ∀ part reply, (.r part, reply) ∈ h' ↔ (.r part, reply) ∈ bothRead w) :
    SwapSafe contents h' := by
  refine ⟨fun hno => absurd hset hno, fun _ part => ?_⟩
  simp only [hreads, mem_bothRead]
  cases part with
  | ablA => exact ⟨⟨_, rfl⟩, fun reply hreply => hreply ▸ ha⟩
  | ablB => exact ⟨⟨_, rfl⟩, fun reply hreply => hreply ▸ hb⟩

/-- No write and no read before the comparison fails: neither those of `abl_a` nor, where what was
read back of it matches, those of `abl_b`. -/
def NoneFails (contents : Image → List UInt8) (w : World Command) : Prop :=
  (w [] .rebootEdl).status = 0 →
    Goes w (inEdl w) .ablA ∧
      (Matches contents w (inEdl w) .ablA → Goes w (readBack w (inEdl w) .ablA) .ablB)

/-- **When an abort leaves both slots restored.** Whatever the commands give back, the swap keeps
its guarantee if and only if no write of the Fairphone ABL and no read of it before the comparison
fails. -/
theorem swapSafe_iff (contents : Image → List UInt8) (sha256 : List UInt8 → String)
    (hsha : ∀ b, sha256 b = sha256 (contents .fp4Abl) → b = contents .fp4Abl)
    (hne : ∀ b, sha256 b ≠ "") (activeSlot : String) (w : World Command) :
    SwapSafe contents ((swap contents sha256 activeSlot).run w []).2 ↔ NoneFails contents w := by
  rw [swap, run_bind, run_orElse, ← inEdl]
  by_cases hreboot : (w [] .rebootEdl).status = 0
  · have hset : ¬ SlotSet (inEdl w) := not_slotSet_inEdl
    rw [if_pos hreboot]
    dsimp only
    rw [run_bind]
    rcases writeVerified_cases .ablA hsha hne with
      ⟨hfails, status, hrun⟩ | ⟨hfails, status, hrun⟩ | ⟨hgoes, hdiffers, hrun⟩ |
        ⟨hgoes, hmatch, hrun⟩
    · rw [hrun]
      exact iff_of_false (not_swapSafe_of_fails hset .ablA).1 fun hall => hfails (hall hreboot).1
    · rw [hrun]
      exact iff_of_false (not_swapSafe_of_fails hset .ablA).2 fun hall => hfails (hall hreboot).1
    · rw [hrun]
      exact iff_of_true (swapSafe_restored (not_slotSet_readBack hset .ablA).2)
        fun _ => ⟨hgoes, fun hyes => absurd hyes hdiffers⟩
    · rw [hrun]
      dsimp only
      have hset' : ¬ SlotSet (readBack w (inEdl w) .ablA) := (not_slotSet_readBack hset .ablA).2
      rw [run_bind]
      rcases writeVerified_cases .ablB hsha hne with
        ⟨hfails, status, hrun'⟩ | ⟨hfails, status, hrun'⟩ | ⟨hgoes', hdiffers, hrun'⟩ |
          ⟨hgoes', hmatch', hrun'⟩
      · rw [hrun']
        exact iff_of_false (not_swapSafe_of_fails hset' .ablB).1
          fun hall => hfails ((hall hreboot).2 hmatch)
      · rw [hrun']
        exact iff_of_false (not_swapSafe_of_fails hset' .ablB).2
          fun hall => hfails ((hall hreboot).2 hmatch)
      · rw [hrun']
        exact iff_of_true (swapSafe_restored (not_slotSet_readBack hset' .ablB).2)
          fun _ => ⟨hgoes, fun _ => hgoes'⟩
      · rw [hrun']
        refine iff_of_true ?_ fun _ => ⟨hgoes, fun _ => hgoes'⟩
        dsimp only
        rw [← bothRead, run_bind, run_plain]
        have hnow : SlotSet ((bothRead w).after w (.setactiveslot activeSlot)) :=
          slotSet_after.mpr (Or.inr ⟨activeSlot, rfl⟩)
        have hreads : ∀ part reply, (.r part, reply) ∈
            (bothRead w).after w (.setactiveslot activeSlot) ↔ (.r part, reply) ∈ bothRead w :=
          fun part reply => mem_after_of_ne (by simp)
        split_ifs
        · dsimp only
          rw [run_bind, run_plain]
          have hlater :
              SlotSet (((bothRead w).after w (.setactiveslot activeSlot)).after w .reset) :=
            slotSet_after.mpr (Or.inl hnow)
          have hsafe := swapSafe_of_matches hmatch hmatch' hlater fun part reply =>
            (mem_after_of_ne (by simp)).trans (hreads part reply)
          split_ifs
          · exact hsafe
          · exact hsafe
        · exact swapSafe_of_matches hmatch hmatch' hnow hreads
  · rw [if_neg hreboot]
    refine iff_of_true ?_ fun hyes => absurd hyes hreboot
    refine (swapSafe_of_not_slotSet not_slotSet_inEdl).mpr fun part => ?_
    rw [inEdl, owed_after]
    rintro (⟨p, hstart⟩ | ⟨howed, -⟩)
    · cases hstart
    · exact not_owed_nil howed

end Swap

/-! ### A swap of one byte -/

/-- The Fairphone ABL is the text `a`, and Onyx's images are other texts. -/
def smallContents : Image → List UInt8
  | .fp4Abl => [97]
  | .onyxAbl .ablA => [98]
  | .onyxAbl .ablB => [99]

/-- The checksum of the text `a`; every other text has another one. -/
def smallSha256 (b : List UInt8) : String :=
  if b = [97] then "ca978112ca1bbdcafac231b39a23dc4da786eff8147c4e72b9807785afee48bb"
  else "3e23e8160039594a33894f6564e1b1348bbd7a0088d42c4acb73eeaed59c009d"

/-- Every command succeeds, and both partitions read back the text and a zero. -/
def goodWorld : World Command := fun _ _ => ⟨0, [97, 0]⟩

theorem swapSafe_good :
    SwapSafe smallContents ((swap smallContents smallSha256 "b").run goodWorld []).2 := by
  refine (swapSafe_iff smallContents smallSha256 ?_ ?_ "b" goodWorld).mpr ?_
  · intro b hb
    by_contra hother
    simp [smallSha256, smallContents, show b ≠ [97] from hother] at hb
  · intro b
    rw [smallSha256]
    split_ifs <;> decide
  · exact fun _ => ⟨⟨rfl, rfl⟩, fun _ => ⟨rfl, rfl⟩⟩

/-- The write of the Fairphone ABL to `abl_a` fails. -/
def failingWorld : World Command := fun _ c =>
  if c = .w .ablA .fp4Abl then ⟨1, []⟩ else ⟨0, [97, 0]⟩

/-- The script ends where the write has failed, and restores nothing. -/
theorem not_swapSafe_failing :
    ¬ SwapSafe smallContents ((swap smallContents smallSha256 "b").run failingWorld []).2 := by
  have hrun : ((swap smallContents smallSha256 "b").run failingWorld []).2
      = written failingWorld (inEdl failingWorld) .ablA := rfl
  rw [hrun]
  exact (not_swapSafe_of_fails not_slotSet_inEdl .ablA).1

end UnlockBootloader

end PalmaEos
