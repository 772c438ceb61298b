import Mathlib.Data.List.DropRight
import PalmaEos.BootPatchers

/-!
# The sections of a boot image

The bootloader finds the sections of an image by adding up the sizes in its header, each rounded up
to whole pages. A patcher that changed such a sum, or moved what is behind it, would make the
bootloader read one section in place of another. The patchers do neither: the new ramdisk takes the
pages of the old one and is declared with a size that needs all of them.

## Main results

* `sameLayout` — which changes of a header keep every offset
* `patchers_move_nothing` — both patchers leave everything but the ramdisk where and as it was
-/

namespace PalmaEos

/-! ### What the bootloader computes -/

namespace BootImage

variable (img : Bytes)

def kernelSize : ℕ := leAt 4 img 8
def ramdiskSize : ℕ := leAt 4 img 16
def secondSize : ℕ := leAt 4 img 24
def pageSize : ℕ := leAt 4 img 36
def recoveryDtboSize : ℕ := leAt 4 img 1632
def dtbSize : ℕ := leAt 4 img 1648

def kernelOffset : ℕ := pageSize img
def ramdiskOffset : ℕ := kernelOffset img + up (pageSize img) (kernelSize img)
def secondOffset : ℕ := ramdiskOffset img + up (pageSize img) (ramdiskSize img)
def recoveryDtboOffset : ℕ := secondOffset img + up (pageSize img) (secondSize img)
def dtbOffset : ℕ := recoveryDtboOffset img + up (pageSize img) (recoveryDtboSize img)
/-- Where the sections end. -/
def tailOffset : ℕ := dtbOffset img + up (pageSize img) (dtbSize img)

def kernel : Bytes := window img (kernelOffset img) (kernelSize img)
def ramdisk : Bytes := window img (ramdiskOffset img) (ramdiskSize img)
def second : Bytes := window img (secondOffset img) (secondSize img)
def dtb : Bytes := window img (dtbOffset img) (dtbSize img)

end BootImage

open BootImage

/-- The image has its length, and the bootloader looks for every section where it did. -/
structure SameLayout (img out : Bytes) : Prop where
  length : out.length = img.length
  ramdisk : ramdiskOffset out = ramdiskOffset img
  second : secondOffset out = secondOffset img
  recoveryDtbo : recoveryDtboOffset out = recoveryDtboOffset img
  dtb : dtbOffset out = dtbOffset img
  tail : tailOffset out = tailOffset img

/-- The ramdisk that the header declares is the stream of `new`, and zeros. -/
def HoldsStream (gzip : Gzip) (out new : Bytes) : Prop :=
  ∃ n, ramdisk out = gzip.compress new ++ List.replicate n 0

/-! ### Whole pages -/

section Pages

variable {ps : ℕ}

theorem le_up (hps : 0 < ps) (n : ℕ) : n ≤ up ps n := by
  have := Nat.div_add_mod (n + ps - 1) ps
  have := Nat.mod_lt (n + ps - 1) hps
  rw [up, Nat.mul_comm]
  omega

theorem up_mono {n m : ℕ} (h : n ≤ m) : up ps n ≤ up ps m :=
  Nat.mul_le_mul_right _ (Nat.div_le_div_right (by omega))

theorem up_zero (hps : 0 < ps) : up ps 0 = 0 := by
  rw [up, Nat.div_eq_of_lt (by omega), Nat.zero_mul]

/-- The header page takes one page. -/
theorem up_page (hps : 0 < ps) (n : ℕ) : up ps (ps + n) = ps + up ps n := by
  rw [up, up, show ps + n + ps - 1 = n + ps - 1 + ps by omega, Nat.add_div_right _ hps,
    Nat.succ_mul, Nat.add_comm]

/-- A stream that fits into the pages of the old ramdisk is declared with all of them. -/
theorem up_declare {n rs : ℕ} (h : up ps n ≤ up ps rs) : up ps (max n rs) = up ps rs := by
  rcases le_total n rs with hle | hle
  · rw [max_eq_right hle]
  · rw [max_eq_left hle]
    exact le_antisymm h (up_mono hle)

theorem length_declare (newRd : Bytes) (rs : ℕ) :
    (declare newRd rs).length = max newRd.length rs := by
  rw [declare, List.length_append, List.length_replicate]
  omega

theorem length_padPages (hps : 0 < ps) (blob : Bytes) :
    (padPages ps blob).length = up ps blob.length := by
  have := le_up hps blob.length
  rw [padPages, List.length_append, List.length_replicate]
  omega

end Pages

/-! ### Layouts -/

section Layout

variable {img out : Bytes}

/-- A field of the header that is left alone. -/
theorem leAt_of_frame (h : ∀ i < 1660, ¬ (16 ≤ i ∧ i < 20) → out[i]? = img[i]?) {w o : ℕ}
    (ho : o + w ≤ 16 ∨ 20 ≤ o) (hend : o + w ≤ 1660) : leAt w out o = leAt w img o := by
  rw [leAt, leAt, window_congr fun i hi hi' => h i (by omega) (by omega)]

/-- **The layout stays** when only `ramdisk_size` changes, and needs as many pages as before. -/
theorem sameLayout (hlen : out.length = img.length)
    (h : ∀ i < 1660, ¬ (16 ≤ i ∧ i < 20) → out[i]? = img[i]?)
    (hsize : up (pageSize img) (ramdiskSize out) = up (pageSize img) (ramdiskSize img)) :
    SameLayout img out := by
  have hpage : pageSize out = pageSize img := leAt_of_frame h (by omega) (by omega)
  have hkernel : kernelSize out = kernelSize img := leAt_of_frame h (by omega) (by omega)
  have hsecond : secondSize out = secondSize img := leAt_of_frame h (by omega) (by omega)
  have hdtbo : recoveryDtboSize out = recoveryDtboSize img := leAt_of_frame h (by omega) (by omega)
  have hdtb : dtbSize out = dtbSize img := leAt_of_frame h (by omega) (by omega)
  constructor
  · exact hlen
  all_goals
    simp only [tailOffset, dtbOffset, recoveryDtboOffset, secondOffset, ramdiskOffset, kernelOffset,
      hpage, hkernel, hsecond, hdtbo, hdtb, hsize]

end Layout

/-! ### The outputs -/

section Outputs

variable {gzip : Gzip} {fuel : ℕ} {img out : Bytes}

/-- The header and the sections that `patch-boot-overlayrc.py` puts together. -/
def rebuilt (img newRd : Bytes) : Bytes :=
  img.take (pageSize img) ++ padPages (pageSize img) (kernel img) ++
    padPages (pageSize img) (declare newRd (ramdiskSize img)) ++
    padPages (pageSize img) (second img) ++ padPages (pageSize img) (dtb img)

/-- **What `patch-boot-overlayrc.py` writes.** -/
theorem overlayRc_eq_ok (h : OverlayRc.main gzip fuel img = .ok out) :
    0 < pageSize img ∧ recoveryDtboSize img = 0 ∧
      ∃ cpio new, gzip.decompress (ramdisk img) = some cpio ∧
      OverlayRc.newCpio fuel cpio = .ok new ∧
      up (pageSize img) (gzip.compress new).length ≤ up (pageSize img) (ramdiskSize img) ∧
      max (gzip.compress new).length (ramdiskSize img) < 2 ^ 32 ∧
      (rebuilt img (gzip.compress new)).length = tailOffset img ∧
      out = splice (rebuilt img (gzip.compress new)) 16
        (toLE 4 (max (gzip.compress new).length (ramdiskSize img))) ++ img.drop (tailOffset img) ∧
      out.length = img.length := by
  rw [OverlayRc.main, guard_eq_ok] at h
  obtain ⟨-, h⟩ := h
  obtain ⟨ks, hks, h⟩ := bind_eq_ok.mp h
  obtain ⟨rs, hrs, h⟩ := bind_eq_ok.mp h
  obtain ⟨ps, hps, h⟩ := bind_eq_ok.mp h
  obtain ⟨hpos, h⟩ := guard_eq_ok.mp h
  obtain ⟨cpio, hcpio, h⟩ := bind_eq_ok.mp h
  obtain ⟨new, hnew, h⟩ := bind_eq_ok.mp h
  obtain ⟨ss, hss, h⟩ := bind_eq_ok.mp h
  obtain ⟨rdtboSz, hrdtbo, h⟩ := bind_eq_ok.mp h
  obtain ⟨dtbSz, hdtb, h⟩ := bind_eq_ok.mp h
  obtain ⟨hnodtbo, h⟩ := guard_eq_ok.mp h
  obtain ⟨hfits, h⟩ := guard_eq_ok.mp h
  obtain ⟨-, h⟩ := guard_eq_ok.mp h
  obtain ⟨base, hbase, h⟩ := bind_eq_ok.mp h
  obtain ⟨hend, h⟩ := guard_eq_ok.mp h
  obtain ⟨hlen, h⟩ := guard_eq_ok.mp h
  obtain ⟨-, rfl⟩ := unpack32_eq_ok.mp hks
  obtain ⟨-, rfl⟩ := unpack32_eq_ok.mp hrs
  obtain ⟨-, rfl⟩ := unpack32_eq_ok.mp hps
  obtain ⟨-, rfl⟩ := unpack32_eq_ok.mp hss
  obtain ⟨-, rfl⟩ := unpack32_eq_ok.mp hrdtbo
  obtain ⟨-, rfl⟩ := unpack32_eq_ok.mp hdtb
  have hpage : 0 < pageSize img := Nat.pos_of_ne_zero hpos
  have hzero : recoveryDtboSize img = 0 := not_not.mp hnodtbo
  have hro : up (pageSize img) (pageSize img + kernelSize img) = ramdiskOffset img :=
    up_page hpage _
  have hdtboff : dtbOffset img = recoveryDtboOffset img := by
    rw [dtbOffset, hzero, up_zero hpage, Nat.add_zero]
  have hread : gzip.decompress (window img (ramdiskOffset img) (ramdiskSize img)) = some cpio := by
    rw [← hro]
    exact Gzip.read_eq_ok.mp hcpio
  obtain ⟨hfield, hfit, rfl⟩ := pack32_eq_ok.mp hbase
  have hrebuilt : img.take (pageSize img) ++
      padPages (pageSize img) (window img (pageSize img) (kernelSize img)) ++
      padPages (pageSize img) (declare (gzip.compress new) (ramdiskSize img)) ++
      padPages (pageSize img) (window img (secondOffset img) (secondSize img)) ++
      padPages (pageSize img) (window img (recoveryDtboOffset img) (dtbSize img))
        = rebuilt img (gzip.compress new) := by
    rw [rebuilt, dtb, hdtboff]
    rfl
  have hroom : 16 + 4 ≤ (rebuilt img (gzip.compress new)).length := by
    rw [← hrebuilt]
    exact hfit
  have htail : tailOffset img = recoveryDtboOffset img + up (pageSize img) (dtbSize img) := by
    rw [tailOffset, hdtboff]
  have hend' : (splice (rebuilt img (gzip.compress new)) 16
      (toLE 4 (declare (gzip.compress new) (ramdiskSize img)).length)).length = tailOffset img := by
    rw [htail, ← hrebuilt]
    exact not_not.mp hend
  have hout : out = splice (rebuilt img (gzip.compress new)) 16
      (toLE 4 (declare (gzip.compress new) (ramdiskSize img)).length) ++
        img.drop (tailOffset img) := by
    rw [htail, ← hrebuilt]
    exact (pure_eq_ok.mp h).symm
  have hsize : out.length = img.length := by
    rw [← pure_eq_ok.mp h]
    exact not_not.mp hlen
  rw [length_declare] at hfield hout hend'
  rw [length_splice (by rwa [length_toLE])] at hend'
  exact ⟨hpage, hzero, cpio, new, hread, hnew, not_lt.mp hfits, hfield, hend', hout, hsize⟩

/-- The new ramdisk of `patch-recovery-adb.py`, in the pages of the old one. -/
def newPages (img newRd : Bytes) : Bytes :=
  declare newRd (ramdiskSize img) ++ List.replicate
    (up (pageSize img) (ramdiskSize img) - (declare newRd (ramdiskSize img)).length) 0

/-- **What `patch-recovery-adb.py` writes.** -/
theorem recoveryAdb_eq_ok {pub : Option Bytes} (h : RecoveryAdb.main gzip fuel pub img = .ok out) :
    0 < pageSize img ∧ ∃ cpio new, gzip.decompress (ramdisk img) = some cpio ∧
      RecoveryAdb.newCpio fuel pub cpio = .ok new ∧
      up (pageSize img) (gzip.compress new).length ≤ up (pageSize img) (ramdiskSize img) ∧
      max (gzip.compress new).length (ramdiskSize img) < 2 ^ 32 ∧
      out = splice (img.take (ramdiskOffset img) ++ newPages img (gzip.compress new) ++
        img.drop (secondOffset img)) 16
        (toLE 4 (max (gzip.compress new).length (ramdiskSize img))) := by
  rw [RecoveryAdb.main, guard_eq_ok] at h
  obtain ⟨-, h⟩ := h
  obtain ⟨ks, hks, h⟩ := bind_eq_ok.mp h
  obtain ⟨rs, hrs, h⟩ := bind_eq_ok.mp h
  obtain ⟨ps, hps, h⟩ := bind_eq_ok.mp h
  obtain ⟨hv, -, h⟩ := bind_eq_ok.mp h
  obtain ⟨hpos, h⟩ := guard_eq_ok.mp h
  obtain ⟨cpio, hcpio, h⟩ := bind_eq_ok.mp h
  obtain ⟨new, hnew, h⟩ := bind_eq_ok.mp h
  obtain ⟨hfits, h⟩ := guard_eq_ok.mp h
  obtain ⟨-, rfl⟩ := unpack32_eq_ok.mp hks
  obtain ⟨-, rfl⟩ := unpack32_eq_ok.mp hrs
  obtain ⟨-, rfl⟩ := unpack32_eq_ok.mp hps
  have hpage : 0 < pageSize img := Nat.pos_of_ne_zero hpos
  have hro : up (pageSize img) (pageSize img + kernelSize img) = ramdiskOffset img :=
    up_page hpage _
  have hread : gzip.decompress (window img (ramdiskOffset img) (ramdiskSize img)) = some cpio := by
    rw [← hro]
    exact Gzip.read_eq_ok.mp hcpio
  obtain ⟨hfield, -, hout⟩ := pack32_eq_ok.mp h
  have hparts : out = splice (img.take (up (pageSize img) (pageSize img + kernelSize img)) ++
      declare (gzip.compress new) (ramdiskSize img) ++ List.replicate
        (up (pageSize img) (ramdiskSize img) -
          (declare (gzip.compress new) (ramdiskSize img)).length) 0 ++
      img.drop (up (pageSize img) (pageSize img + kernelSize img) +
        up (pageSize img) (ramdiskSize img))) 16
      (toLE 4 (declare (gzip.compress new) (ramdiskSize img)).length) := hout
  rw [hro, List.append_assoc (img.take _), length_declare] at hparts
  rw [length_declare] at hfield
  refine ⟨hpage, cpio, new, hread, hnew, Nat.mul_le_mul_right _ (not_lt.mp hfits), hfield, ?_⟩
  rw [hparts, newPages, length_declare]
  rfl

end Outputs

/-! ### Nothing moves -/

section Unmoved

variable {gzip : Gzip} {fuel : ℕ} {img out new : Bytes}

theorem declare_take (newRd : Bytes) (rs : ℕ) {blob : Bytes} :
    (declare newRd rs ++ blob).take (max newRd.length rs) = declare newRd rs := by
  rw [← length_declare, List.take_left]

/-- The declared ramdisk, where the new ramdisk stands with its zeros. -/
theorem holdsStream_of_window {blob : Bytes} {n : ℕ}
    (hwin : window out (ramdiskOffset out) n
      = declare (gzip.compress new) (ramdiskSize img) ++ blob)
    (hsize : ramdiskSize out = max (gzip.compress new).length (ramdiskSize img))
    (hn : ramdiskSize out ≤ n) : HoldsStream gzip out new := by
  refine ⟨max (gzip.compress new).length (ramdiskSize img) - (gzip.compress new).length, ?_⟩
  rw [ramdisk, window_shorter hwin hn, hsize, declare_take, declare]

theorem recoveryAdb_moves_nothing {pub : Option Bytes} (hpage : 1660 ≤ pageSize img)
    (hlen : tailOffset img ≤ img.length) (h : RecoveryAdb.main gzip fuel pub img = .ok out) :
    SameLayout img out ∧
      (∀ i, ¬ (16 ≤ i ∧ i < 20) → ¬ (ramdiskOffset img ≤ i ∧ i < secondOffset img) →
        out[i]? = img[i]?) ∧
      ∃ cpio new, gzip.decompress (ramdisk img) = some cpio ∧
        RecoveryAdb.newCpio fuel pub cpio = .ok new ∧ HoldsStream gzip out new := by
  obtain ⟨hpos, cpio, new, hread, hnew, hfits, hfield, hout⟩ := recoveryAdb_eq_ok h
  have hsecond : secondOffset img = ramdiskOffset img + up (pageSize img) (ramdiskSize img) := rfl
  have htail : secondOffset img ≤ tailOffset img := by
    simp only [tailOffset, dtbOffset, recoveryDtboOffset]
    omega
  have hro : 1660 ≤ ramdiskOffset img := by
    rw [ramdiskOffset, kernelOffset]
    omega
  have hdeclared : max (gzip.compress new).length (ramdiskSize img)
      ≤ up (pageSize img) (ramdiskSize img) := by
    rw [← up_declare hfits]
    exact le_up hpos _
  have hpages : (newPages img (gzip.compress new)).length
      = up (pageSize img) (ramdiskSize img) := by
    rw [newPages, List.length_append, List.length_replicate, length_declare]
    omega
  -- the output is the input with two windows written over
  have hsplice : out = splice (splice img (ramdiskOffset img) (newPages img (gzip.compress new))) 16
      (toLE 4 (max (gzip.compress new).length (ramdiskSize img))) := by
    rw [hout, hsecond, splice.eq_def img, hpages]
  have hfit : ramdiskOffset img + (newPages img (gzip.compress new)).length ≤ img.length := by omega
  have hlen' := length_splice hfit
  have hfit' : 16 + (toLE 4 (max (gzip.compress new).length (ramdiskSize img))).length
      ≤ (splice img (ramdiskOffset img) (newPages img (gzip.compress new))).length := by
    rw [length_toLE, hlen']
    omega
  have hframe : ∀ i, ¬ (16 ≤ i ∧ i < 20) → ¬ (ramdiskOffset img ≤ i ∧ i < secondOffset img) →
      out[i]? = img[i]? := by
    intro i hi hi'
    rw [hsplice, getElem?_splice hfit', getElem?_splice hfit, length_toLE, if_neg (by omega),
      if_neg (by omega)]
  have hsize : ramdiskSize out = max (gzip.compress new).length (ramdiskSize img) := by
    rw [ramdiskSize, hsplice]
    exact (leAt_splice_inside (b := 0) hfit' (by rw [length_toLE])).trans (leAt_toLE hfield)
  have hlayout : SameLayout img out := by
    refine sameLayout ?_ (fun i hi hi' => hframe i hi' (by omega)) ?_
    · rw [hsplice, length_splice hfit', hlen']
    · rw [hsize, up_declare hfits]
  have hwin : window out (ramdiskOffset out) (newPages img (gzip.compress new)).length
      = newPages img (gzip.compress new) := by
    rw [hlayout.ramdisk, hsplice, window_splice_of_disjoint hfit' (by rw [length_toLE]; omega),
      window_splice_self hfit]
  exact ⟨hlayout, hframe, cpio, new, hread, hnew, holdsStream_of_window hwin hsize (by omega)⟩

/-- The parts of the output of `patch-boot-overlayrc.py`: the header with its new `ramdisk_size`,
the four sections in the pages that the old header gives them, and the old tail. -/
theorem overlayRc_parts (hpage : 1660 ≤ pageSize img)
    (h : OverlayRc.main gzip fuel img = .ok out) :
    ∃ cpio new header, gzip.decompress (ramdisk img) = some cpio ∧
      OverlayRc.newCpio fuel cpio = .ok new ∧
      out.length = img.length ∧ recoveryDtboSize img = 0 ∧
      up (pageSize img) (max (gzip.compress new).length (ramdiskSize img))
        = up (pageSize img) (ramdiskSize img) ∧
      header.length = pageSize img ∧
      (∀ i < pageSize img, ¬ (16 ≤ i ∧ i < 20) → header[i]? = img[i]?) ∧
      leAt 4 header 16 = max (gzip.compress new).length (ramdiskSize img) ∧
      (padPages (pageSize img) (kernel img)).length = up (pageSize img) (kernelSize img) ∧
      (padPages (pageSize img) (second img)).length = up (pageSize img) (secondSize img) ∧
      (padPages (pageSize img) (dtb img)).length = up (pageSize img) (dtbSize img) ∧
      out = header ++ padPages (pageSize img) (kernel img) ++
        padPages (pageSize img) (declare (gzip.compress new) (ramdiskSize img)) ++
        padPages (pageSize img) (second img) ++ padPages (pageSize img) (dtb img) ++
        img.drop (tailOffset img) := by
  obtain ⟨hpos, hzero, cpio, new, hread, hnew, hfits, hfield, hend, hout, hlen⟩ := overlayRc_eq_ok h
  have hdeclared := up_declare hfits
  -- the sections end where the old ones did, so none of them was cut short
  have hsum := hend
  rw [rebuilt] at hsum
  simp only [List.length_append, length_padPages hpos, length_declare, List.length_take] at hsum
  have hkernel : up (pageSize img) (kernel img).length ≤ up (pageSize img) (kernelSize img) :=
    up_mono (by rw [kernel, length_window]; exact min_le_left _ _)
  have hsecond : up (pageSize img) (second img).length ≤ up (pageSize img) (secondSize img) :=
    up_mono (by rw [second, length_window]; exact min_le_left _ _)
  have hdtb : up (pageSize img) (dtb img).length ≤ up (pageSize img) (dtbSize img) :=
    up_mono (by rw [dtb, length_window]; exact min_le_left _ _)
  have htail : tailOffset img = pageSize img + up (pageSize img) (kernelSize img) +
      up (pageSize img) (ramdiskSize img) + up (pageSize img) (secondSize img) +
      up (pageSize img) (dtbSize img) := by
    rw [tailOffset, dtbOffset, hzero, up_zero hpos]
    rfl
  have hheader : (img.take (pageSize img)).length = pageSize img := by
    rw [List.length_take]
    omega
  have hfit : 16 + (toLE 4 (max (gzip.compress new).length (ramdiskSize img))).length
      ≤ (img.take (pageSize img)).length := by
    rw [length_toLE, hheader]
    omega
  refine ⟨cpio, new, splice (img.take (pageSize img)) 16
    (toLE 4 (max (gzip.compress new).length (ramdiskSize img))), hread, hnew, hlen, hzero,
    hdeclared, ?_, ?_, ?_, ?_, ?_, ?_, ?_⟩
  · rw [length_splice hfit, hheader]
  · intro i hi hi'
    rw [getElem?_splice hfit, length_toLE, if_neg hi', List.getElem?_take, if_pos hi]
  · exact (leAt_splice_inside (b := 0) hfit (by rw [length_toLE])).trans (leAt_toLE hfield)
  · rw [length_padPages hpos]
    omega
  · rw [length_padPages hpos]
    omega
  · rw [length_padPages hpos]
    omega
  · rw [hout, rebuilt]
    simp only [List.append_assoc]
    rw [splice_append_left hfit]
    simp only [List.append_assoc]

/-- `patch-boot-overlayrc.py` keeps the layout, and the header but for the size of the ramdisk. -/
theorem overlayRc_layout (hpage : 1660 ≤ pageSize img)
    (h : OverlayRc.main gzip fuel img = .ok out) :
    SameLayout img out ∧
      (∀ i < pageSize img, ¬ (16 ≤ i ∧ i < 20) → out[i]? = img[i]?) ∧
      ∃ cpio new, gzip.decompress (ramdisk img) = some cpio ∧
        OverlayRc.newCpio fuel cpio = .ok new ∧ HoldsStream gzip out new := by
  obtain ⟨cpio, new, header, hread, hnew, hlen, -, hdeclared, hheader, hsame, hfield, hkernel, -, -,
    hout⟩ := overlayRc_parts hpage h
  have hframe : ∀ i < pageSize img, ¬ (16 ≤ i ∧ i < 20) → out[i]? = img[i]? := by
    intro i hi hi'
    rw [hout]
    simp only [List.append_assoc]
    rw [List.getElem?_append_left (by omega)]
    exact hsame i hi hi'
  have hsize : ramdiskSize out = max (gzip.compress new).length (ramdiskSize img) := by
    rw [ramdiskSize, hout]
    simp only [List.append_assoc]
    rw [leAt_append_left (by omega), hfield]
  have hlayout : SameLayout img out := by
    refine sameLayout hlen (fun i hi hi' => hframe i (by omega) hi') ?_
    rw [hsize, hdeclared]
  have hoff : (header ++ padPages (pageSize img) (kernel img)).length = ramdiskOffset out := by
    rw [hlayout.ramdisk, List.length_append, hheader, hkernel]
    rfl
  have hwin : window out (ramdiskOffset out)
      (padPages (pageSize img) (declare (gzip.compress new) (ramdiskSize img))).length
        = padPages (pageSize img) (declare (gzip.compress new) (ramdiskSize img)) :=
    window_of_parts (by simp only [hout, List.append_assoc]; rfl) hoff
  refine ⟨hlayout, hframe, cpio, new, hread, hnew, holdsStream_of_window hwin hsize ?_⟩
  rw [hsize, padPages, List.length_append, length_declare]
  exact Nat.le_add_right _ _

/-- The start of a padded section is the section. -/
theorem window_padPages {ps a n : ℕ} {blob : Bytes}
    (h : window out a (padPages ps blob).length = padPages ps blob) (hn : blob.length = n) :
    window out a n = blob := by
  rw [window_shorter h (by rw [padPages, List.length_append]; omega), padPages, ← hn,
    List.take_left]

theorem overlayRc_contents (hpage : 1660 ≤ pageSize img) (hlen : tailOffset img ≤ img.length)
    (h : OverlayRc.main gzip fuel img = .ok out) :
    kernel out = kernel img ∧ second out = second img ∧ dtb out = dtb img ∧
      out.drop (tailOffset img) = img.drop (tailOffset img) := by
  obtain ⟨hlayout, hframe, -⟩ := overlayRc_layout hpage h
  obtain ⟨cpio, new, header, -, -, -, hzero, hdeclared, hheader, -, -, hkernel, hsecond, hdtb,
    hout⟩ := overlayRc_parts hpage h
  have hpos : 0 < pageSize img := by omega
  have hrd : (padPages (pageSize img) (declare (gzip.compress new) (ramdiskSize img))).length
      = up (pageSize img) (ramdiskSize img) := by
    rw [length_padPages hpos, length_declare, hdeclared]
  have hdtboff : dtbOffset img = recoveryDtboOffset img := by
    rw [dtbOffset, hzero, up_zero hpos, Nat.add_zero]
  have hfield : ∀ i < 1660, ¬ (16 ≤ i ∧ i < 20) → out[i]? = img[i]? :=
    fun i hi hi' => hframe i (by omega) hi'
  have hpage' : pageSize out = pageSize img := leAt_of_frame hfield (by omega) (by omega)
  have hkernel' : kernelSize out = kernelSize img := leAt_of_frame hfield (by omega) (by omega)
  have hsecond' : secondSize out = secondSize img := leAt_of_frame hfield (by omega) (by omega)
  have hdtb' : dtbSize out = dtbSize img := leAt_of_frame hfield (by omega) (by omega)
  -- each section ends inside the image, so it is not cut short
  have hends : pageSize img + kernelSize img ≤ img.length ∧
      secondOffset img + secondSize img ≤ img.length ∧
      dtbOffset img + dtbSize img ≤ img.length := by
    have hk := le_up hpos (kernelSize img)
    have hs := le_up hpos (secondSize img)
    have hd := le_up hpos (dtbSize img)
    simp only [tailOffset, dtbOffset, recoveryDtboOffset, secondOffset, ramdiskOffset, kernelOffset]
      at hlen ⊢
    omega
  refine ⟨?_, ?_, ?_, ?_⟩
  · rw [kernel, kernelOffset, hpage', hkernel']
    refine window_padPages
      (window_of_parts (by simp only [hout, List.append_assoc]; rfl) hheader) ?_
    exact length_window_of_le hends.1
  · rw [second, hlayout.second, hsecond']
    have hoff : (header ++ padPages (pageSize img) (kernel img) ++
        padPages (pageSize img) (declare (gzip.compress new) (ramdiskSize img))).length
          = secondOffset img := by
      rw [List.length_append, List.length_append, hheader, hkernel, hrd]
      rfl
    refine window_padPages (window_of_parts (by simp only [hout, List.append_assoc]; rfl) hoff) ?_
    exact length_window_of_le hends.2.1
  · rw [dtb, hlayout.dtb, hdtb']
    have hoff : (header ++ padPages (pageSize img) (kernel img) ++
        padPages (pageSize img) (declare (gzip.compress new) (ramdiskSize img)) ++
        padPages (pageSize img) (second img)).length = dtbOffset img := by
      rw [List.length_append, List.length_append, List.length_append, hheader, hkernel, hrd,
        hsecond, hdtboff]
      rfl
    refine window_padPages (window_of_parts (by simp only [hout, List.append_assoc]; rfl) hoff) ?_
    exact length_window_of_le hends.2.2
  · have hoff : (header ++ padPages (pageSize img) (kernel img) ++
        padPages (pageSize img) (declare (gzip.compress new) (ramdiskSize img)) ++
        padPages (pageSize img) (second img) ++ padPages (pageSize img) (dtb img)).length
          = tailOffset img := by
      rw [List.length_append, List.length_append, List.length_append, List.length_append, hheader,
        hkernel, hrd, hsecond, hdtb, tailOffset, hdtboff]
      rfl
    nth_rewrite 1 [hout]
    rw [← hoff, List.drop_left]

end Unmoved

/-- **The boot patchers move nothing.** Let the pages of an image be large enough for its header,
and the image as long as its sections. Whatever `patch-boot-overlayrc.py` writes has the layout of
the image; the header differs in `ramdisk_size` only; kernel, second stage, DTB and tail are the
same. Whatever `patch-recovery-adb.py` writes has the layout of the image and differs from it in
`ramdisk_size` and in the pages of the ramdisk only. Both declare a ramdisk that is the new stream
and zeros. -/
theorem patchers_move_nothing (gzip : Gzip) (img : Bytes) (hpage : 1660 ≤ pageSize img)
    (hlen : tailOffset img ≤ img.length) :
    (∀ fuel out, OverlayRc.main gzip fuel img = .ok out →
      SameLayout img out ∧
        (∀ i < pageSize img, ¬ (16 ≤ i ∧ i < 20) → out[i]? = img[i]?) ∧
        (kernel out = kernel img ∧ second out = second img ∧ dtb out = dtb img ∧
          out.drop (tailOffset img) = img.drop (tailOffset img)) ∧
        ∃ cpio new, gzip.decompress (ramdisk img) = some cpio ∧
          OverlayRc.newCpio fuel cpio = .ok new ∧ HoldsStream gzip out new) ∧
    ∀ fuel pub out, RecoveryAdb.main gzip fuel pub img = .ok out →
      SameLayout img out ∧
        (∀ i, ¬ (16 ≤ i ∧ i < 20) → ¬ (ramdiskOffset img ≤ i ∧ i < secondOffset img) →
          out[i]? = img[i]?) ∧
        leAt 8 out 1636 = leAt 8 img 1636 ∧
        ∃ cpio new, gzip.decompress (ramdisk img) = some cpio ∧
          RecoveryAdb.newCpio fuel pub cpio = .ok new ∧ HoldsStream gzip out new := by
  constructor
  · intro fuel out h
    obtain ⟨hlayout, hframe, hstream⟩ := overlayRc_layout hpage h
    exact ⟨hlayout, hframe, overlayRc_contents hpage hlen h, hstream⟩
  · intro fuel pub out h
    obtain ⟨hlayout, hframe, hstream⟩ := recoveryAdb_moves_nothing hpage hlen h
    have hro : 1660 ≤ ramdiskOffset img := by
      rw [ramdiskOffset, kernelOffset]
      omega
    refine ⟨hlayout, hframe, ?_, hstream⟩
    exact leAt_of_frame (fun i hi hi' => hframe i hi' (by omega)) (by omega) (by omega)

/-! ### A run of both patchers -/

/-- The `n` bytes of a number, most significant first. -/
def row (n v : ℕ) : Bytes := (toLE n v).reverse

/-- Bytes without the zeros at the end. -/
def stripZeros (y : Bytes) : Bytes := y.rdropWhile (· = 0)

/-- A stream for any bytes, ended by a 2. -/
def escape : Bytes → Bytes
  | [] => [2]
  | b :: x => 1 :: b :: escape x

def unescape : Bytes → Option Bytes
  | [] => none
  | [c] => if c = 2 then some [] else none
  | c :: b :: y => if c = 1 then (unescape y).map (b :: ·) else if c = 2 then some [] else none

theorem stripZeros_append (y : Bytes) (n : ℕ) :
    stripZeros (y ++ List.replicate n 0) = stripZeros y := by
  induction n with
  | zero => rw [List.replicate_zero, List.append_nil]
  | succ n ih =>
    rw [List.replicate_succ', ← List.append_assoc, stripZeros,
      List.rdropWhile_concat_pos _ _ _ (by decide)]
    exact ih

theorem unescape_escape (x zeros : Bytes) : unescape (escape x ++ zeros) = some x := by
  induction x with
  | nil => cases zeros <;> rfl
  | cons b x ih =>
    rw [escape, List.cons_append, List.cons_append, unescape, if_pos rfl, ih]
    rfl

theorem head_stripZeros_escape (x : Bytes) : (stripZeros (escape x)).head? ≠ some 0x1F := by
  obtain ⟨rest, hrest⟩ : stripZeros (escape x) <+: escape x := List.rdropWhile_prefix _ _
  intro hhead
  obtain ⟨l, hl⟩ := List.head?_eq_some_iff.mp hhead
  rw [hl, List.cons_append] at hrest
  cases x <;> simp [escape] at hrest

/-- A gzip that knows recorded streams, and escapes everything else. -/
def recordedGzip (table : List (Bytes × Bytes))
    (hsame : ∀ e ∈ table, ∀ e' ∈ table, stripZeros e'.2 = stripZeros e.2 → e'.1 = e.1)
    (hmagic : ∀ e ∈ table, (stripZeros e.2).head? = some 0x1F) : Gzip where
  compress x := match table.find? fun e => e.1 = x with
    | some e => e.2
    | none => escape x
  decompress y := match table.find? fun e => stripZeros e.2 = stripZeros y with
    | some e => some e.1
    | none => unescape y
  decompress_compress x n := by
    rcases hfind : table.find? fun e => e.1 = x with _ | e
    · -- nothing recorded starts like an escape
      have hnone : (table.find? fun e =>
          stripZeros e.2 = stripZeros (escape x ++ List.replicate n 0)) = none := by
        rw [List.find?_eq_none]
        intro e he heq
        have hhead := hmagic e he
        rw [of_decide_eq_true heq, stripZeros_append] at hhead
        exact head_stripZeros_escape x hhead
      simp only [hfind, hnone]
      exact unescape_escape x _
    · have hmem := List.mem_of_find?_eq_some hfind
      have hplain : e.1 = x := by simpa using List.find?_some hfind
      simp only [hfind, stripZeros_append]
      rcases hstream : table.find? fun e' => stripZeros e'.2 = stripZeros e.2 with _ | e'
      · exact absurd (List.find?_eq_none.mp hstream e hmem) (by simp)
      · have hmem' := List.mem_of_find?_eq_some hstream
        have heq : stripZeros e'.2 = stripZeros e.2 := by simpa using List.find?_some hstream
        simp only [hstream]
        rw [hsame e hmem e' hmem' heq, hplain]

def initEntry : Bytes := Cpio.cpioEntry "init".toList (Text.encode "#!".toList) 0o100750

def propEntry : Bytes := Cpio.cpioEntry "prop".toList (Text.encode "a=b\n".toList) 0o100644

def trailerEntry : Bytes := Cpio.cpioEntry Cpio.TRAILER [] 0

def hostKey : Bytes := Text.encode "key\n".toList

/-- A ramdisk of two archives. -/
def twoArchives : Bytes := initEntry ++ trailerEntry ++ (propEntry ++ trailerEntry)

/-- Three streams of gzip: of `twoArchives`, and of what either patcher makes of it. -/
def patchTable : List (Bytes × Bytes) := [
  (twoArchives,
    row 38 0x1f8b08000000000002ff3330373037303440021686ae1606d881211adfc88038600a6364e665 ++
    row 38 0x963030282b32301860d88b0710ab0e1d38c11821418e9e3eae418a8a409bb1d96d61e86842a4 ++
    row 27 0xdd26a4fab9a028bf808121d136896b20fd0c00122cb855e8010000),
  (initEntry ++ OverlayRc.add,
    row 38 0x1f8b08000000000002ff9d52cb6ac33010d4d95fb149cf8ae480492050682187424fa13fa0c7 ++
    row 38 0x3616912d23c90ef9fbca6a5dea12da9039ed6877767625f10ddff092ffc0b6dc6ff97594bff8 ++
    row 38 0x9adf866a0a4c6b22210f0b42f8fdbe6555dd665b7ed7b901bd15979566d2b968dd71e5152145 ++
    row 38 0x403f1885f075082c5c42c48649d3b2500355b03cd7c62244dfe30eb49b5524851211a804612d ++
    row 38 0x500d7480587b143a9a06e11198c68149ebd429db2696cc98bcd0563438ca75df74bb594fdd60 ++
    row 38 0x38fe2bf5e2fc290d16b183f5385a8bcb021294152180721e33edd38ee0538bcc8edef55da630 ++
    row 38 0xee3bceda79a7724e9b20a4455d14ae85ce8548df03d5228a9c0d51f8385d542e9153d3798a5c ++
    row 31 0x7bdbbf1e89df87e729783b3cbdbcee0f8b45fa55847c0091cba61ad0020000),
  (initEntry ++ trailerEntry ++ propEntry ++ Cpio.cpioEntry "adb_keys".toList hostKey 0o100644 ++
      trailerEntry,
    row 38 0x1f8b08000000000002ff3330373037303440021686ae1606d881211adfc88038600a6364e665 ++
    row 38 0x963030282b32301860d88b0710ab0e1d38c11821418e9e3eae418a8a409bb1d96d61e86842a4 ++
    row 38 0xdd26a4fab9a028bf808121d136898b2ef65ac218892949f1d9a995c50c0c40926b20c31b00c2 ++
    row 7 0x74fe4864020000)]

/-- The recorded stream of some bytes. -/
def unread (x : Bytes) : Bytes := ((patchTable.find? fun e => e.1 = x).map Prod.snd).getD []

def patchGzip : Gzip := recordedGzip patchTable (by decide +kernel) (by decide +kernel)

/-- An image with a kernel, a ramdisk of 103 bytes and a DTB of one page each, and a tail. -/
def patchImage : Bytes :=
  ANDROID ++ toLE 4 6 ++ toLE 4 0 ++ toLE 4 103 ++ List.replicate 16 0 ++ toLE 4 2048 ++
    List.replicate 1608 0 ++ toLE 4 5 ++ List.replicate 396 0 ++
    padPages 2048 (Text.encode "kernel".toList) ++
    padPages 2048 (unread twoArchives) ++ padPages 2048 (Text.encode "trees".toList) ++
    Text.encode "AVB0".toList

theorem patchImage_main : (OverlayRc.main patchGzip 4 patchImage).isOk = true ∧
    (RecoveryAdb.main patchGzip 4 (some hostKey) patchImage).isOk = true := by
  decide +kernel

theorem patchers_move_nothing_two_archives :
    (∃ out, OverlayRc.main patchGzip 4 patchImage = .ok out ∧ SameLayout patchImage out ∧
      kernel out = kernel patchImage ∧ dtb out = dtb patchImage) ∧
    ∃ out, RecoveryAdb.main patchGzip 4 (some hostKey) patchImage = .ok out ∧
      SameLayout patchImage out := by
  have h := patchers_move_nothing patchGzip patchImage (by decide +kernel) (by decide +kernel)
  obtain ⟨out, hout⟩ := exists_of_isOk patchImage_main.1
  obtain ⟨out', hout'⟩ := exists_of_isOk patchImage_main.2
  obtain ⟨hlayout, -, ⟨hkernel, -, hdtb, -⟩, -⟩ := h.1 4 out hout
  exact ⟨⟨out, hout, hlayout, hkernel, hdtb⟩, out', hout', (h.2 4 (some hostKey) out' hout').1⟩

end PalmaEos
