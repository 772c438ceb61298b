import PalmaEos.Lib.Sorted
import PalmaEos.Lib.Words
import PalmaEos.BootSections

/-!
# Sessions of the three boot image patchers

`patch-boot-cmdline.py` appends to the kernel command line, which has 512 bytes of the header of its
own; it moves nothing, so it gets along with the two patchers of the ramdisk, in any order. That is
what is proved: a session of all three is one of the ramdisk patchers and, after it, one of the
command line edits.

The arguments of the script are texts, its files are bytes, and what it prints is left out, the
warning about keys that are already there included.

## Main results

* `BootCmdline.main_eq` — what the script writes
* `overlayRc_edit`, `recoveryAdb_edit` — patching a ramdisk under another command line
* `patches_sorted` — a session of all three, in any order
-/

namespace PalmaEos

open BootImage

/-! ### `patch-boot-cmdline.py` -/

namespace BootCmdline

def CMDLINE_OFF : ℕ := 64
def CMDLINE_LEN : ℕ := 512

/-- How `patch-boot-cmdline.py` ends when it does not return 0. -/
inductive Failure where
  | usage
  | notBootImage
  | struct
  | tooLong (n : ℕ)
  | assertion
deriving DecidableEq, Repr

/-- `cur`: the command line in the header. -/
def cur (img : Bytes) : Bytes := (window img CMDLINE_OFF CMDLINE_LEN).takeWhile (· ≠ 0)

/-- `extra`: the arguments behind the two file names. -/
def extra (args : List Text) : Text := [' '].intercalate args

/-- `new`. -/
def new (img : Bytes) (args : List Text) : Bytes :=
  Text.encode (Text.strip (Text.decode (cur img) ++ ' ' :: extra args))

/-- The whole field. -/
def field (new : Bytes) : Bytes := new ++ List.replicate (CMDLINE_LEN - new.length) 0

/-- `main` on the arguments and the bytes of the input file; the bytes of the output file. -/
def main (args : List Text) (img : Bytes) : Except Failure Bytes :=
  if args = [] then .error .usage
  else if img.take 8 ≠ ANDROID then .error .notBootImage
  else match bufferAt img 40 4 with
    | none => .error .struct
    | some _hv =>
      let new := new img args
      if new.length > CMDLINE_LEN - 1 then .error (.tooLong new.length)
      else
        let out := img.take CMDLINE_OFF ++ field new ++ img.drop (CMDLINE_OFF + CMDLINE_LEN)
        if out.length ≠ img.length then .error .assertion
        else .ok out

/-- The words on the command line. -/
def args (img : Bytes) : List Text := Text.words (Text.decode (cur img))

theorem length_field {b : Bytes} (h : b.length ≤ CMDLINE_LEN) : (field b).length = CMDLINE_LEN := by
  rw [field, List.length_append, List.length_replicate]
  omega

/-- **What the script writes** into an image that has a whole header. -/
theorem main_eq {a : List Text} {img : Bytes} (ha : a ≠ []) (hmagic : img.take 8 = ANDROID)
    (hlen : 576 ≤ img.length) : main a img
      = if CMDLINE_LEN - 1 < (new img a).length then .error (.tooLong (new img a).length)
        else .ok (splice img CMDLINE_OFF (field (new img a))) := by
  rw [main, if_neg ha, if_neg (not_not.mpr hmagic), show (40 : ℤ) = ((40 : ℕ) : ℤ) from rfl,
    bufferAt_natCast, if_pos (by omega)]
  dsimp only
  split_ifs with hlong hsize
  · rfl
  · -- the field is as long as what it replaces
    have hfield := length_field (b := new img a) (by rw [CMDLINE_LEN] at *; omega)
    rw [List.length_append, List.length_append, List.length_take, List.length_drop, hfield,
      CMDLINE_OFF, CMDLINE_LEN] at hsize
    omega
  · have hfield := length_field (b := new img a) (by rw [CMDLINE_LEN] at *; omega)
    rw [splice, hfield]

end BootCmdline
/-! ### The ramdisk patchers under another command line -/

/-- An image with room for a header in its first page, that is as long as its sections. -/
structure Roomy (img : Bytes) : Prop where
  page : 1660 ≤ pageSize img
  sections : tailOffset img ≤ img.length

theorem Roomy.page_le {img : Bytes} (h : Roomy img) : pageSize img ≤ img.length := by
  have := h.sections
  simp only [tailOffset, dtbOffset, recoveryDtboOffset, secondOffset, ramdiskOffset, kernelOffset]
    at this
  omega

/-- What keeps the layout and the page size keeps the room. -/
theorem Roomy.of_sameLayout {img out : Bytes} (h : Roomy img) (hlayout : SameLayout img out)
    (hpage : pageSize out = pageSize img) : Roomy out := by
  constructor
  · rw [hpage]
    exact h.page
  · rw [hlayout.tail, hlayout.length]
    exact h.sections

section Edit

variable {img f : Bytes} {w o : ℕ}

theorem leAt_edit (hlen : 64 + f.length ≤ img.length) (hf : f.length = 512)
    (ho : o + w ≤ 64 ∨ 576 ≤ o) : leAt w (splice img 64 f) o = leAt w img o :=
  leAt_splice_of_disjoint hlen (by omega)

theorem unpack32_edit (hlen : 64 + f.length ≤ img.length) (hf : f.length = 512)
    (ho : o + 4 ≤ 64 ∨ 576 ≤ o) : unpack32 (splice img 64 f) o = unpack32 img o := by
  rw [unpack32, unpack32, bufferAt_natCast, bufferAt_natCast, length_splice hlen,
    window_splice_of_disjoint hlen (by omega)]

/-- The layout reads none of the command line. -/
theorem sameLayout_edit (hlen : 64 + f.length ≤ img.length) (hf : f.length = 512) :
    SameLayout img (splice img 64 f) ∧ kernelSize (splice img 64 f) = kernelSize img ∧
      secondSize (splice img 64 f) = secondSize img ∧ dtbSize (splice img 64 f) = dtbSize img ∧
      pageSize (splice img 64 f) = pageSize img := by
  have hks : kernelSize (splice img 64 f) = kernelSize img := leAt_edit hlen hf (by omega)
  have hrs : ramdiskSize (splice img 64 f) = ramdiskSize img := leAt_edit hlen hf (by omega)
  have hss : secondSize (splice img 64 f) = secondSize img := leAt_edit hlen hf (by omega)
  have hps : pageSize (splice img 64 f) = pageSize img := leAt_edit hlen hf (by omega)
  have hds : recoveryDtboSize (splice img 64 f) = recoveryDtboSize img :=
    leAt_edit hlen hf (by omega)
  have hts : dtbSize (splice img 64 f) = dtbSize img := leAt_edit hlen hf (by omega)
  refine ⟨?_, hks, hss, hts, hps⟩
  constructor
  · exact length_splice hlen
  all_goals
    simp only [tailOffset, dtbOffset, recoveryDtboOffset, secondOffset, ramdiskOffset, kernelOffset,
      hks, hrs, hss, hps, hds, hts]

/-- A field of the header, packed under another command line. -/
theorem pack32_edit (hlen : 64 + f.length ≤ img.length) (v : ℕ) :
    pack32 (splice img 64 f) 16 v = (pack32 img 16 v).map (splice · 64 f) := by
  have hroom : 16 + 4 ≤ img.length := by omega
  by_cases hv : v < 2 ^ 32
  · rw [pack32_eq_ok.mpr ⟨hv, hroom, rfl⟩, Except.map,
      pack32_eq_ok.mpr ⟨hv, by rwa [length_splice hlen], rfl⟩]
    rw [splice_comm _ _ _ (by rw [length_toLE]; omega) hlen]
  · have hbig : ¬ v < 256 ^ 4 := hv
    rw [pack32, pack32, packInto, packInto, pack, if_neg hbig]
    rfl

end Edit

section Patchers

variable {gzip : Gzip} {fuel : ℕ} {img f : Bytes}

theorem ok_bind {ε α β : Type} (a : α) (g : α → Except ε β) : (Except.ok a >>= g) = g a := rfl

theorem le_length_append {n : ℕ} {d : Bytes} (e : Bytes) (h : n ≤ d.length) :
    n ≤ (d ++ e).length :=
  h.trans ((List.prefix_append d e).length_le)

/-- The end of `patch-boot-overlayrc.py`, from the header that is declared on. -/
theorem declared_edit {v e n : ℕ} {r : Bytes} (hlen : 64 + f.length ≤ img.length) :
    (do
      let out ← pack32 (splice img 64 f) 16 v
      if out.length ≠ e then .error (.refused (.tailMoves out.length e))
      else if (out ++ r).length ≠ n then .error (.refused .sizeChanges)
      else return out ++ r)
    = Except.map (splice · 64 f) (do
      let out ← pack32 img 16 v
      if out.length ≠ e then .error (.refused (.tailMoves out.length e))
      else if (out ++ r).length ≠ n then .error (.refused .sizeChanges)
      else return out ++ r) := by
  rw [pack32_edit hlen]
  cases hpack : pack32 img 16 v with
  | error fault => rfl
  | ok out =>
    obtain ⟨-, hroom, rfl⟩ := pack32_eq_ok.mp hpack
    have hout : (splice img 16 (toLE 4 v)).length = img.length :=
      length_splice (by rwa [length_toLE])
    rw [← hout] at hlen
    rw [Except.map, ok_bind, ok_bind, List.length_append, List.length_append, length_splice hlen]
    split_ifs
    · rfl
    · rfl
    · rw [← splice_append_left hlen]
      rfl

/-- **`patch-boot-overlayrc.py` under another command line.** -/
theorem overlayRc_edit (h : Roomy img) (hf : f.length = 512) :
    OverlayRc.main gzip fuel (splice img 64 f)
      = (OverlayRc.main gzip fuel img).map (splice · 64 f) := by
  have hroom : 1660 ≤ leAt 4 img 36 := h.page
  have hend : leAt 4 img 36 ≤ img.length := h.page_le
  have hlen : 64 + f.length ≤ img.length := by omega
  have hread : ∀ o, o + 4 ≤ 1660 → unpack32 img o = .ok (leAt 4 img o) :=
    fun o ho => unpack32_eq_ok.mpr ⟨by omega, rfl⟩
  rw [OverlayRc.main, OverlayRc.main, take_splice hlen (by omega)]
  by_cases hmagic : img.take 8 ≠ ANDROID
  · rw [if_pos hmagic, if_pos hmagic]
    rfl
  rw [if_neg hmagic, if_neg hmagic]
  repeat rw [unpack32_edit hlen hf (by omega)]
  rw [hread 8 (by omega), hread 16 (by omega), hread 36 (by omega), hread 24 (by omega),
    hread 1632 (by omega), hread 1648 (by omega)]
  simp only [ok_bind]
  generalize leAt 4 img 36 = ps at hroom hend ⊢
  -- nothing that is read past the header page has changed
  have hwin : ∀ o n, ps ≤ o → window (splice img 64 f) o n = window img o n :=
    fun o n ho => window_splice_of_disjoint hlen (by omega)
  have hpos : ps ≠ 0 := by omega
  have hro : ps ≤ up ps (ps + leAt 4 img 8) :=
    (Nat.le_add_right ..).trans (le_up (by omega) _)
  rw [if_neg hpos, if_neg hpos, hwin _ _ hro]
  cases gzip.read (window img (up ps (ps + leAt 4 img 8)) (leAt 4 img 16)) with
  | error fault => rfl
  | ok cpio =>
    rw [ok_bind, ok_bind]
    cases OverlayRc.newCpio fuel cpio with
    | error fault => rfl
    | ok new =>
      rw [ok_bind, ok_bind]
      split_ifs
      · rfl
      · rfl
      · rfl
      · have hhead : 64 + f.length ≤ (img.take ps).length := by
          rw [List.length_take]
          omega
        have hkernel := le_length_append (padPages ps (window img ps (leAt 4 img 8))) hhead
        have hramdisk := le_length_append
          (padPages ps (declare (gzip.compress new) (leAt 4 img 16))) hkernel
        rw [hwin ps _ le_rfl, hwin _ _ (by omega), hwin _ _ (by omega), drop_splice hlen (by omega),
          length_splice hlen, take_splice_of_le hlen (by omega), ← splice_append_left hhead,
          ← splice_append_left hkernel, ← splice_append_left hramdisk,
          ← splice_append_left (le_length_append _ hramdisk)]
        exact declared_edit (le_length_append _ (le_length_append _ hramdisk))

/-- **`patch-recovery-adb.py` under another command line.** -/
theorem recoveryAdb_edit {pub : Option Bytes} (h : Roomy img) (hf : f.length = 512) :
    RecoveryAdb.main gzip fuel pub (splice img 64 f)
      = (RecoveryAdb.main gzip fuel pub img).map (splice · 64 f) := by
  have hroom : 1660 ≤ leAt 4 img 36 := h.page
  have hend : leAt 4 img 36 ≤ img.length := h.page_le
  have hlen : 64 + f.length ≤ img.length := by omega
  have hread : ∀ o, o + 4 ≤ 1660 → unpack32 img o = .ok (leAt 4 img o) :=
    fun o ho => unpack32_eq_ok.mpr ⟨by omega, rfl⟩
  rw [RecoveryAdb.main, RecoveryAdb.main, take_splice hlen (by omega)]
  by_cases hmagic : img.take 8 ≠ ANDROID
  · rw [if_pos hmagic, if_pos hmagic]
    rfl
  rw [if_neg hmagic, if_neg hmagic]
  repeat rw [unpack32_edit hlen hf (by omega)]
  rw [hread 8 (by omega), hread 16 (by omega), hread 36 (by omega), hread 40 (by omega)]
  simp only [ok_bind]
  generalize leAt 4 img 36 = ps at hroom hend ⊢
  have hpos : ps ≠ 0 := by omega
  have hro : ps ≤ up ps (ps + leAt 4 img 8) :=
    (Nat.le_add_right ..).trans (le_up (by omega) _)
  rw [if_neg hpos, if_neg hpos, window_splice_of_disjoint hlen (by omega)]
  cases gzip.read (window img (up ps (ps + leAt 4 img 8)) (leAt 4 img 16)) with
  | error fault => rfl
  | ok cpio =>
    rw [ok_bind, ok_bind]
    cases RecoveryAdb.newCpio fuel pub cpio with
    | error fault => rfl
    | ok new =>
      rw [ok_bind, ok_bind]
      split_ifs
      · rfl
      · have hhead : 64 + f.length ≤ (img.take (up ps (ps + leAt 4 img 8))).length := by
          rw [List.length_take]
          omega
        rw [take_splice_of_le hlen (by omega), drop_splice hlen (by omega),
          ← splice_append_left hhead, ← splice_append_left (le_length_append _ hhead),
          ← splice_append_left (le_length_append _ (le_length_append _ hhead))]
        exact pack32_edit (le_length_append _ (le_length_append _ (le_length_append _ hhead))) _

end Patchers

/-! ### The words on the command line -/

namespace BootCmdline

section Words

variable {a : List Text} {img : Bytes}

theorem words_extra : ∀ a : List Text, Text.words (extra a) = a.flatMap Text.words
  | [] => Text.words_nil
  | [t] => by
    rw [extra, List.intercalate_singleton, List.flatMap_singleton]
  | t :: u :: a => by
    have hjoin : extra (t :: u :: a) = t ++ ' ' :: extra (u :: a) := by
      rw [extra, List.intercalate_cons_cons, List.append_assoc]
      rfl
    rw [hjoin, Text.words_append_space rfl, words_extra (u :: a)]
    rfl

theorem mem_extra {c : Char} : ∀ {a : List Text}, c ∈ extra a → c = ' ' ∨ ∃ t ∈ a, c ∈ t
  | [], h => absurd h List.not_mem_nil
  | [t], h => .inr ⟨t, List.mem_singleton_self t, by rwa [extra, List.intercalate_singleton] at h⟩
  | t :: u :: a, h => by
    rw [extra, List.intercalate_cons_cons, List.append_assoc, List.mem_append,
      List.mem_append, List.mem_singleton] at h
    rcases h with h | h | h
    · exact .inr ⟨t, List.mem_cons_self, h⟩
    · exact .inl h
    · obtain h | ⟨u', hu', h⟩ := mem_extra (a := u :: a) h
      · exact .inl h
      · exact .inr ⟨u', List.mem_cons_of_mem _ hu', h⟩

/-- The new command line has no zero in it. -/
theorem new_no_nul (ha : ∀ t ∈ a, ∀ c ∈ t, c.toNat ≠ 0) : ∀ b ∈ new img a, b ≠ 0 := by
  refine Text.encode_no_nul fun c hc => ?_
  rcases List.mem_append.mp (Text.mem_of_mem_strip hc) with h | h
  · exact Text.decode_no_nul (fun b hb => by simpa using List.mem_takeWhile_imp hb) c h
  · rcases List.mem_cons.mp h with rfl | h
    · decide
    · obtain rfl | ⟨t, ht, h⟩ := mem_extra h
      · decide
      · exact ha t ht c h

/-- **The words of the arguments** stand behind those that were there. -/
theorem args_edit (hlen : 576 ≤ img.length) (hnew : (new img a).length < CMDLINE_LEN)
    (ha : ∀ t ∈ a, ∀ c ∈ t, c.toNat ≠ 0) :
    args (splice img CMDLINE_OFF (field (new img a))) = args img ++ a.flatMap Text.words := by
  have hfield : (field (new img a)).length = CMDLINE_LEN := length_field hnew.le
  have hwin : window (splice img CMDLINE_OFF (field (new img a))) CMDLINE_OFF CMDLINE_LEN
      = field (new img a) := by
    rw [← hfield]
    exact window_splice_self (by rw [hfield, CMDLINE_OFF, CMDLINE_LEN]; omega)
  have hcur : cur (splice img CMDLINE_OFF (field (new img a))) = new img a := by
    rw [cur, hwin, field]
    exact Text.takeWhile_field (new_no_nul ha) (Nat.sub_pos_of_lt hnew)
  rw [args, hcur, new, Text.decode_encode, Text.words_strip, Text.words_append_space rfl,
    words_extra]
  rfl

/-- Images with one command line. -/
theorem cur_congr {img' : Bytes} (h : ∀ i, 64 ≤ i → i < 576 → img'[i]? = img[i]?) :
    cur img' = cur img := by
  rw [cur, cur, window_congr h]

end Words

end BootCmdline

/-! ### Sessions -/

theorem SameLayout.refl (img : Bytes) : SameLayout img img := ⟨rfl, rfl, rfl, rfl, rfl, rfl⟩

theorem SameLayout.trans {img mid out : Bytes} (h : SameLayout img mid) (h' : SameLayout mid out) :
    SameLayout img out :=
  ⟨h'.length.trans h.length, h'.ramdisk.trans h.ramdisk, h'.second.trans h.second,
    h'.recoveryDtbo.trans h.recoveryDtbo, h'.dtb.trans h.dtb, h'.tail.trans h.tail⟩

/-- Everything but the ramdisk is as it was. -/
structure SameContents (img out : Bytes) : Prop where
  kernel : kernel out = kernel img
  second : second out = second img
  dtb : dtb out = dtb img
  tail : out.drop (tailOffset img) = img.drop (tailOffset img)

theorem SameContents.refl (img : Bytes) : SameContents img img := ⟨rfl, rfl, rfl, rfl⟩

theorem SameContents.trans {img mid out : Bytes} (h : SameContents img mid)
    (hlayout : SameLayout img mid) (h' : SameContents mid out) : SameContents img out := by
  have htail := h'.tail
  rw [hlayout.tail] at htail
  exact ⟨h'.kernel.trans h.kernel, h'.second.trans h.second, h'.dtb.trans h.dtb,
    htail.trans h.tail⟩

/-- What writes to the header and the pages of the ramdisk only leaves the other sections alone. -/
theorem sameContents_of_frame {img out : Bytes} (h : Roomy img) (hlayout : SameLayout img out)
    (hsizes : kernelSize out = kernelSize img ∧ secondSize out = secondSize img ∧
      dtbSize out = dtbSize img ∧ pageSize out = pageSize img)
    (hframe : ∀ i, pageSize img ≤ i → ¬ (ramdiskOffset img ≤ i ∧ i < secondOffset img) →
      out[i]? = img[i]?) : SameContents img out := by
  obtain ⟨hks, hss, hds, hps⟩ := hsizes
  have hpos : 0 < pageSize img := by
    have := h.page
    omega
  have hk := le_up hpos (kernelSize img)
  have hro : ramdiskOffset img = pageSize img + up (pageSize img) (kernelSize img) := rfl
  have hso : secondOffset img = ramdiskOffset img + up (pageSize img) (ramdiskSize img) := rfl
  have hdo : secondOffset img ≤ dtbOffset img :=
    (Nat.le_add_right _ _).trans (Nat.le_add_right _ _)
  have hto : dtbOffset img ≤ tailOffset img := Nat.le_add_right _ _
  constructor
  · rw [kernel, kernel, kernelOffset, hps, hks]
    exact window_congr fun i hi hi' => hframe i hi (by omega)
  · rw [second, second, hlayout.second, hss]
    exact window_congr fun i hi _ => hframe i (by omega) (by omega)
  · rw [dtb, dtb, hlayout.dtb, hds]
    exact window_congr fun i hi _ => hframe i (by omega) (by omega)
  · refine List.ext_getElem? fun i => ?_
    rw [List.getElem?_drop, List.getElem?_drop]
    exact hframe _ (by omega) (by omega)

/-- What is asked of the patchers. -/
inductive Patch where
  | cmdline (args : List Text)
  | overlayRc
  | recoveryAdb (pub : Option Bytes)

namespace Patch

/-- The patch is one of the ramdisk. -/
def onRamdisk : Patch → Bool
  | cmdline _ => false
  | _ => true

/-- The output of the script, where it writes one. -/
def run (gzip : Gzip) (fuel : ℕ) : Patch → Bytes → Option Bytes
  | cmdline args, img => (BootCmdline.main args img).toOption
  | overlayRc, img => (OverlayRc.main gzip fuel img).toOption
  | recoveryAdb pub, img => (RecoveryAdb.main gzip fuel pub img).toOption

/-- The words that the patch adds to the command line. -/
def words : Patch → List Text
  | cmdline args => args.flatMap Text.words
  | _ => []

/-- No argument has a zero in it, as none that a process is given has. -/
def NoNul : Patch → Prop
  | cmdline args => ∀ t ∈ args, ∀ c ∈ t, c.toNat ≠ 0
  | _ => True

end Patch

section Sessions

variable {gzip : Gzip} {fuel : ℕ} {img out : Bytes}

theorem toOption_eq_some {ε α : Type} {x : Except ε α} {a : α} :
    x.toOption = some a ↔ x = .ok a := by
  cases x with
  | error e => exact iff_of_false nofun nofun
  | ok b => exact ⟨fun h => congrArg _ (Option.some.inj h), fun h => congrArg _ (Except.ok.inj h)⟩

theorem toOption_map {ε α : Type} (x : Except ε α) (g : α → α) :
    (x.map g).toOption = x.toOption.map g := by
  cases x <;> rfl

/-- What an edit of the command line does. -/
theorem cmdline_run {a : List Text} (h : Roomy img) :
    Patch.run gzip fuel (.cmdline a) img
      = if a ≠ [] ∧ img.take 8 = ANDROID ∧
          (BootCmdline.new img a).length < BootCmdline.CMDLINE_LEN
        then some (splice img 64 (BootCmdline.field (BootCmdline.new img a))) else none := by
  have hlen := h.page.trans h.page_le
  rw [Patch.run]
  by_cases ha : a = []
  · rw [if_neg fun hall => hall.1 ha, BootCmdline.main, if_pos ha]
    rfl
  by_cases hmagic : img.take 8 = ANDROID
  · rw [BootCmdline.main_eq ha hmagic (by omega)]
    by_cases hlong : BootCmdline.CMDLINE_LEN - 1 < (BootCmdline.new img a).length
    · rw [if_pos hlong, if_neg fun hall => absurd hall.2.2 (by omega)]
      rfl
    · rw [if_neg hlong, if_pos ⟨ha, hmagic, by rw [BootCmdline.CMDLINE_LEN] at *; omega⟩]
      rfl
  · rw [if_neg fun hall => hmagic hall.2.1, BootCmdline.main, if_neg ha, if_pos hmagic]
    rfl

/-- An edit of the command line that went through. -/
theorem cmdline_eq_some {a : List Text} (h : Roomy img)
    (hrun : Patch.run gzip fuel (.cmdline a) img = some out) :
    (BootCmdline.new img a).length < BootCmdline.CMDLINE_LEN ∧
      out = splice img 64 (BootCmdline.field (BootCmdline.new img a)) := by
  rw [cmdline_run h, Option.ite_none_right_eq_some] at hrun
  exact ⟨hrun.1.2.2, (Option.some.inj hrun.2).symm⟩

/-- What a patch of the ramdisk leaves alone. -/
theorem ramdisk_kept {p : Patch} (h : Roomy img) (hp : p.onRamdisk = true)
    (hrun : p.run gzip fuel img = some out) :
    SameLayout img out ∧ SameContents img out ∧
      ∀ i < 1660, ¬ (16 ≤ i ∧ i < 20) → out[i]? = img[i]? := by
  have hpage := h.page
  cases p with
  | cmdline a => exact absurd hp (by simp [Patch.onRamdisk])
  | overlayRc =>
    have hmain := toOption_eq_some.mp hrun
    obtain ⟨hlayout, hframe, -⟩ := overlayRc_layout hpage hmain
    obtain ⟨hkernel, hsecond, hdtb, htail⟩ := overlayRc_contents hpage h.sections hmain
    exact ⟨hlayout, ⟨hkernel, hsecond, hdtb, htail⟩, fun i hi hi' => hframe i (by omega) hi'⟩
  | recoveryAdb pub =>
    obtain ⟨hlayout, hframe, -⟩ :=
      recoveryAdb_moves_nothing hpage h.sections (toOption_eq_some.mp hrun)
    have hro : pageSize img ≤ ramdiskOffset img := Nat.le_add_right _ _
    have hhead : ∀ i < 1660, ¬ (16 ≤ i ∧ i < 20) → out[i]? = img[i]? :=
      fun i hi hi' => hframe i hi' (by omega)
    refine ⟨hlayout, sameContents_of_frame h hlayout ⟨leAt_of_frame hhead (by omega) (by omega),
      leAt_of_frame hhead (by omega) (by omega), leAt_of_frame hhead (by omega) (by omega),
      leAt_of_frame hhead (by omega) (by omega)⟩ ?_, hhead⟩
    exact fun i hi hi' => hframe i (by omega) hi'

/-- **One patch**: nothing moves, and the words of the patch are added. -/
theorem patch_step {p : Patch} (h : Roomy img) (hrun : p.run gzip fuel img = some out) :
    Roomy out ∧ SameLayout img out ∧ SameContents img out ∧
      (p.NoNul → BootCmdline.args out = BootCmdline.args img ++ p.words) := by
  cases hkind : p.onRamdisk with
  | true =>
    obtain ⟨hlayout, hcontents, hframe⟩ := ramdisk_kept h hkind hrun
    have hpage : pageSize out = pageSize img := leAt_of_frame hframe (by omega) (by omega)
    have hwords : p.words = [] := by
      cases p with
      | cmdline a => exact absurd hkind (by simp [Patch.onRamdisk])
      | overlayRc => rfl
      | recoveryAdb pub => rfl
    refine ⟨h.of_sameLayout hlayout hpage, hlayout, hcontents, fun _ => ?_⟩
    rw [hwords, List.append_nil, BootCmdline.args, BootCmdline.args,
      BootCmdline.cur_congr fun i hi hi' => hframe i (by omega) (by omega)]
  | false =>
    cases p with
    | cmdline a =>
      have hlen := h.page.trans h.page_le
      obtain ⟨hnew, rfl⟩ := cmdline_eq_some h hrun
      have hfield := BootCmdline.length_field hnew.le
      have hroom : 64 + (BootCmdline.field (BootCmdline.new img a)).length ≤ img.length := by
        rw [hfield, BootCmdline.CMDLINE_LEN]
        omega
      obtain ⟨hlayout, hsizes⟩ := sameLayout_edit hroom hfield
      refine ⟨h.of_sameLayout hlayout hsizes.2.2.2, hlayout,
        sameContents_of_frame h hlayout hsizes fun i hi _ => ?_,
        BootCmdline.args_edit (by omega) hnew⟩
      have hpage := h.page
      rw [getElem?_splice hroom, hfield, BootCmdline.CMDLINE_LEN]
      exact if_neg (by omega)
    | overlayRc => exact absurd hkind (by simp [Patch.onRamdisk])
    | recoveryAdb pub => exact absurd hkind (by simp [Patch.onRamdisk])

/-- A patch of the ramdisk and an edit of the command line, in either order. -/
theorem patch_comm {p q : Patch} (h : Roomy img) (hp : p.onRamdisk = false)
    (hq : q.onRamdisk = true) : (p.run gzip fuel img).bind (q.run gzip fuel)
      = (q.run gzip fuel img).bind (p.run gzip fuel) := by
  have hlen := h.page.trans h.page_le
  obtain ⟨a, rfl⟩ : ∃ a, p = .cmdline a := by
    cases p with
    | cmdline a => exact ⟨a, rfl⟩
    | overlayRc => exact absurd hp (by simp [Patch.onRamdisk])
    | recoveryAdb pub => exact absurd hp (by simp [Patch.onRamdisk])
  have hedit : ∀ f : Bytes, f.length = 512 →
      q.run gzip fuel (splice img 64 f) = (q.run gzip fuel img).map (splice · 64 f) := by
    intro f hf
    cases q with
    | cmdline a => exact absurd hq (by simp [Patch.onRamdisk])
    | overlayRc => rw [Patch.run, overlayRc_edit h hf, toOption_map, Patch.run]
    | recoveryAdb pub => rw [Patch.run, recoveryAdb_edit h hf, toOption_map, Patch.run]
  cases hq' : q.run gzip fuel img with
  | none =>
    rw [Option.bind_none, Option.bind_eq_none_iff]
    intro out hrun
    obtain ⟨hnew, rfl⟩ := cmdline_eq_some h hrun
    rw [hedit _ (BootCmdline.length_field hnew.le), hq', Option.map_none]
  | some mid =>
    -- the edit reads nothing that the ramdisk patch has changed
    obtain ⟨hlayout, -, hframe⟩ := ramdisk_kept h hq hq'
    have hpage : pageSize mid = pageSize img := leAt_of_frame hframe (by omega) (by omega)
    have hmagic : mid.take 8 = img.take 8 :=
      window_congr (d := mid) (e := img) (a := 0) fun i _ hi => hframe i (by omega) (by omega)
    have hcur : BootCmdline.cur mid = BootCmdline.cur img :=
      BootCmdline.cur_congr fun i hi hi' => hframe i (by omega) (by omega)
    have hnew : BootCmdline.new mid a = BootCmdline.new img a := by
      rw [BootCmdline.new, hcur, BootCmdline.new]
    rw [Option.bind_some, cmdline_run h, cmdline_run (h.of_sameLayout hlayout hpage), hmagic, hnew]
    split_ifs with hall
    · rw [Option.bind_some, hedit _ (BootCmdline.length_field hall.2.2.le), hq', Option.map_some]
    · rfl

variable {ps : List Patch}

/-- **A session**: nothing moves, and the words of the patches are added. -/
theorem patches_run (h : Roomy img) (hps : ∀ p ∈ ps, p.NoNul)
    (hrun : runSteps (Patch.run gzip fuel) ps img = some out) :
    Roomy out ∧ SameLayout img out ∧ SameContents img out ∧
      BootCmdline.args out = BootCmdline.args img ++ ps.flatMap Patch.words := by
  induction ps generalizing img with
  | nil =>
    obtain rfl := Option.some.inj hrun
    exact ⟨h, SameLayout.refl img, SameContents.refl img, (List.append_nil _).symm⟩
  | cons p ps ih =>
    obtain ⟨mid, hmid, hrest⟩ := Option.bind_eq_some_iff.mp hrun
    obtain ⟨hroomy, hlayout, hcontents, hargs⟩ := patch_step h hmid
    obtain ⟨hroomy', hlayout', hcontents', hargs'⟩ :=
      ih hroomy (List.forall_mem_cons.mp hps).2 hrest
    refine ⟨hroomy', hlayout.trans hlayout', hcontents.trans hlayout hcontents', ?_⟩
    rw [hargs', hargs (List.forall_mem_cons.mp hps).1, List.flatMap_cons, List.append_assoc]

/-- A session of command line edits writes to the command line only. -/
theorem cmdlines_frame (h : Roomy img) (hps : ∀ p ∈ ps, p.onRamdisk = false)
    (hrun : runSteps (Patch.run gzip fuel) ps img = some out) :
    ∀ i, ¬ (64 ≤ i ∧ i < 576) → out[i]? = img[i]? := by
  induction ps generalizing img with
  | nil =>
    obtain rfl := Option.some.inj hrun
    exact fun i _ => rfl
  | cons p ps ih =>
    obtain ⟨mid, hmid, hrest⟩ := Option.bind_eq_some_iff.mp hrun
    have hlen := h.page.trans h.page_le
    have hp := (List.forall_mem_cons.mp hps).1
    cases p with
    | cmdline a =>
      obtain ⟨hnew, rfl⟩ := cmdline_eq_some h hmid
      have hfield := BootCmdline.length_field hnew.le
      have hroom : 64 + (BootCmdline.field (BootCmdline.new img a)).length ≤ img.length := by
        rw [hfield, BootCmdline.CMDLINE_LEN]
        omega
      obtain ⟨hlayout, -, -, -, hpage⟩ := sameLayout_edit hroom hfield
      intro i hi
      rw [ih (h.of_sameLayout hlayout hpage) (List.forall_mem_cons.mp hps).2 hrest i hi,
        getElem?_splice hroom, hfield]
      exact if_neg hi
    | overlayRc => exact absurd hp (by simp [Patch.onRamdisk])
    | recoveryAdb pub => exact absurd hp (by simp [Patch.onRamdisk])

/-- The ramdisk that is declared, under another command line. -/
theorem ramdisk_congr (hlayout : SameLayout img out) (hpage : 1660 ≤ pageSize img)
    (h : ∀ i, ¬ (64 ≤ i ∧ i < 576) → out[i]? = img[i]?) : ramdisk out = ramdisk img := by
  have hro : pageSize img ≤ ramdiskOffset img := Nat.le_add_right _ _
  have hsize : ramdiskSize out = ramdiskSize img := by
    rw [ramdiskSize, leAt, window_congr fun i hi hi' => h i (by omega)]
    rfl
  rw [ramdisk, hlayout.ramdisk, hsize]
  exact window_congr fun i hi _ => h i (by omega)

end Sessions

/-- **A session of the three patchers, in any order.** Let the pages of an image be large enough for
its header, and the image as long as its sections. Whatever patches are asked for, in whatever
order, the session does what the patches of the ramdisk do followed by the edits of the command
line, and fails where they fail. When it goes through, every section is where it was, and kernel,
second stage, DTB and tail are the same; outside of the command line the output is what the patches
of the ramdisk make of the image, and the ramdisk it declares is theirs; and the words on the
command line are those of the image followed by those of the edits, in the order in which they were
asked for. -/
theorem patches_sorted (gzip : Gzip) (fuel : ℕ) (ps : List Patch) (img : Bytes)
    (hpage : 1660 ≤ pageSize img) (hlen : tailOffset img ≤ img.length)
    (hps : ∀ p ∈ ps, p.NoNul) :
    runSteps (Patch.run gzip fuel) ps img
        = (runSteps (Patch.run gzip fuel) (ps.filter Patch.onRamdisk) img).bind
            (runSteps (Patch.run gzip fuel) (ps.filter fun p => !p.onRamdisk)) ∧
      ∀ out, runSteps (Patch.run gzip fuel) ps img = some out →
        ∃ mid, runSteps (Patch.run gzip fuel) (ps.filter Patch.onRamdisk) img = some mid ∧
          SameLayout img out ∧ SameContents img out ∧
          (∀ i, ¬ (64 ≤ i ∧ i < 576) → out[i]? = mid[i]?) ∧
          ramdisk out = ramdisk mid ∧
          BootCmdline.args out = BootCmdline.args img ++ ps.flatMap Patch.words := by
  have h : Roomy img := ⟨hpage, hlen⟩
  have hsorted : runSteps (Patch.run gzip fuel) ps img
      = (runSteps (Patch.run gzip fuel) (ps.filter Patch.onRamdisk) img).bind
          (runSteps (Patch.run gzip fuel) (ps.filter fun p => !p.onRamdisk)) := by
    rw [← runSteps_append]
    exact runSteps_sorted (fun p s s' hs hrun => (patch_step hs hrun).1)
      (fun p q s hs => patch_comm hs) h
  refine ⟨hsorted, fun out hout => ?_⟩
  obtain ⟨-, hlayout, hcontents, hargs⟩ := patches_run h hps hout
  obtain ⟨mid, hmid, hedits⟩ := Option.bind_eq_some_iff.mp (hsorted ▸ hout)
  obtain ⟨hroomy, hlayout', -⟩ := patches_run h (fun p hp => hps p (List.mem_of_mem_filter hp)) hmid
  obtain ⟨-, hlayout'', -⟩ :=
    patches_run hroomy (fun p hp => hps p (List.mem_of_mem_filter hp)) hedits
  have hframe := cmdlines_frame hroomy (by simp) hedits
  exact ⟨mid, hmid, hlayout, hcontents, hframe, ramdisk_congr hlayout'' hroomy.page hframe, hargs⟩

/-- A command line, the overlay, and more of the command line. -/
def patchSession : List Patch :=
  [.cmdline [['r', 'o']], .overlayRc, .cmdline [['q', 'u', 'i', 'e', 't'], ['a', '=', 'b']]]

theorem patchSession_run : (runSteps (Patch.run patchGzip 4) patchSession patchImage).isSome := by
  decide +kernel

theorem patchSession_noNul : ∀ p ∈ patchSession, p.NoNul := by
  rw [patchSession, List.forall_mem_cons, List.forall_mem_cons, List.forall_mem_singleton]
  refine ⟨?_, trivial, ?_⟩
  · show ∀ t ∈ [['r', 'o']], ∀ c ∈ t, c.toNat ≠ 0
    simp only [List.forall_mem_cons, List.not_mem_nil, false_implies, forall_const, and_true]
    decide
  · show ∀ t ∈ [['q', 'u', 'i', 'e', 't'], ['a', '=', 'b']], ∀ c ∈ t, c.toNat ≠ 0
    simp only [List.forall_mem_cons, List.not_mem_nil, false_implies, forall_const, and_true]
    decide

theorem patches_sorted_two_archives :
    ∃ out, runSteps (Patch.run patchGzip 4) patchSession patchImage = some out ∧
      SameLayout patchImage out ∧ SameContents patchImage out ∧
      BootCmdline.args out = [['r', 'o'], ['q', 'u', 'i', 'e', 't'], ['a', '=', 'b']] := by
  obtain ⟨out, hout⟩ := Option.isSome_iff_exists.mp patchSession_run
  have h := patches_sorted patchGzip 4 patchSession patchImage (by decide +kernel)
    (by decide +kernel) patchSession_noNul
  obtain ⟨mid, -, hlayout, hcontents, -, -, hargs⟩ := h.2 out hout
  refine ⟨out, hout, hlayout, hcontents, hargs.trans ?_⟩
  decide +kernel

end PalmaEos
