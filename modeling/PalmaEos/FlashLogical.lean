import PalmaEos.Listing

/-!
# `flash-logical-via-edl.py`

The script splits an image over the extents of a logical partition and writes each piece with
one `edl ws` command. Here is its `main` from the parsed arguments on, and what it does to the
device: refused arguments leave it alone, and accepted ones scatter the image, padded with zeros
to whole sectors, along the partition's device ranges.

The `edl` program is a parameter. `Edl.Overwrites` is what the scripts rely on: `edl ws S file`
writes the file's bytes from device byte `S * 4096` on and reports success.

## Main results

* `main_of_refused` — a refusal writes nothing
* `main_eq_scatter` — an accepted image is scattered along `deviceLayout`
-/

namespace PalmaEos

/-- The bytes of the device, by absolute address. -/
abbrev Device := ℕ → UInt8

/-- The `edl` program: what `edl ws sector file` makes of the device, and whether it printed
`Wrote`. -/
structure Edl where
  /-- `edl ws`. -/
  ws : ℕ → Bytes → Device → Device × Bool

/-- Every `edl ws` succeeds and overwrites the device from the given sector on. -/
def Edl.Overwrites (edl : Edl) : Prop :=
  ∀ sector file d, edl.ws sector file d = (overwrite d (sector * SECTOR) file, true)

/-- An `edl` that does just that. -/
def overwritingEdl : Edl := ⟨fun sector file d => (overwrite d (sector * SECTOR) file, true)⟩

theorem overwritingEdl_overwrites : overwritingEdl.Overwrites := fun _ _ _ => rfl

namespace FlashLogical

/-- An entry of `plan`: the device sector, the image offset, and how many image bytes to take.
The last two are integers, as in the script. -/
structure PlanEntry where
  sector : ℕ
  off : ℤ
  take : ℤ

/-- The planning loop, from image offset `imgOff` on. `none` is the refusal of an extent that is
not aligned to device sectors. -/
def planFrom (size : ℕ) : ℤ → List ListedExtent → Option (List PlanEntry)
  | _, [] => some []
  | imgOff, (phys512, len512) :: ext =>
    let byteOff := SUPER_OFFSET + phys512 * 512
    let nbytes := len512 * 512
    if byteOff % SECTOR ≠ 0 ∨ nbytes % SECTOR ≠ 0 then none
    else
      let take := min nbytes (max 0 (size - imgOff))
      (planFrom size (imgOff + nbytes) ext).map (⟨byteOff / SECTOR, imgOff, take⟩ :: ·)

/-- The copying loop: `remaining` bytes of `src` in reads of at most 8 MiB, stopping early at the
end of the file. -/
def copyLoop (src : Bytes) (remaining : ℕ) : Bytes :=
  if remaining = 0 then []
  else
    let buf := src.take (min (8 <<< 20) remaining)
    if buf = [] then []
    else buf ++ copyLoop (src.drop buf.length) (remaining - buf.length)
termination_by remaining
decreasing_by
  have : 0 < buf.length := List.length_pos_iff.mpr ‹_›
  exact Nat.sub_lt (Nat.pos_of_ne_zero ‹_›) this

/-- Zeros up to a whole number of sectors. -/
def padSector (piece : Bytes) : Bytes :=
  piece ++ List.replicate ((SECTOR - piece.length % SECTOR) % SECTOR) 0

/-- The writing loop: exit code and device. `src.seek` raises on a negative offset. -/
def writePlan (edl : Edl) (image : Bytes) : List PlanEntry → Device → ℕ × Device
  | [], d => (0, d)
  | e :: plan, d =>
    if e.take ≤ 0 then writePlan edl image plan d
    else if e.off < 0 then (1, d)
    else
      let piece := copyLoop (image.drop e.off.toNat) e.take.toNat
      let (d', ok) := edl.ws e.sector (padSector piece) d
      if ok then writePlan edl image plan d' else (1, d')

/-- `main` after the arguments: the exit code, and the device it leaves. -/
def main (edl : Edl) (image : Bytes) (listing : List Text) (part : Text) (go : Bool)
    (d : Device) : ℕ × Device :=
  let ext := extentsFor listing part
  if ext = [] then (1, d)
  else if (image.length : ℤ) > totalBytes ext then (1, d)
  else match planFrom image.length 0 ext with
    | none => (1, d)
    | some plan => if ! go then (0, d) else writePlan edl image plan d

/-! ### Refusals -/

theorem planFrom_eq_none {size : ℕ} {ext : List ListedExtent} {e : ListedExtent} (he : e ∈ ext)
    (hmis : ¬ (SECTOR ∣ SUPER_OFFSET + e.1 * 512 ∧ (SECTOR : ℤ) ∣ e.2 * 512)) (imgOff : ℤ) :
    planFrom size imgOff ext = none := by
  induction ext generalizing imgOff with
  | nil => simp at he
  | cons x ext ih =>
    obtain ⟨phys512, len512⟩ := x
    rw [planFrom]
    split_ifs with hx
    · rfl
    · rcases List.mem_cons.mp he with rfl | he
      · rw [not_or, not_not, not_not] at hx
        exact absurd ⟨Nat.dvd_of_mod_eq_zero hx.1, Int.dvd_of_emod_eq_zero hx.2⟩ hmis
      · rw [ih he, Option.map_none]

/-- What the script refuses: a partition the listing does not have, an image larger than the
partition, or an extent that does not start and end on a sector. -/
def Refused (image : Bytes) (listing : List Text) (part : Text) : Prop :=
  extentsFor listing part = [] ∨ totalBytes (extentsFor listing part) < image.length ∨
    ∃ e ∈ extentsFor listing part,
      ¬ (SECTOR ∣ SUPER_OFFSET + e.1 * 512 ∧ (SECTOR : ℤ) ∣ e.2 * 512)

/-- **A refusal writes nothing**, whatever `edl` is. -/
theorem main_of_refused {image : Bytes} {listing : List Text} {part : Text}
    (h : Refused image listing part) (edl : Edl) (go : Bool) (d : Device) :
    main edl image listing part go d = (1, d) := by
  rw [main]
  split_ifs with hnone hbig
  · rfl
  · rfl
  all_goals
    obtain ⟨e, he, hmis⟩ := (h.resolve_left hnone).resolve_left (by omega)
    simp only [planFrom_eq_none he hmis]

/-! ### Accepted images -/

theorem copyLoop_eq (src : Bytes) (remaining : ℕ) :
    copyLoop src remaining = src.take remaining := by
  fun_induction copyLoop src remaining with
  | case1 src => rw [List.take_zero]
  | case2 src remaining hrem buf hbuf =>
    have hsrc : src = [] := by
      have := congrArg List.length hbuf
      rw [List.length_take, List.length_nil] at this
      exact List.eq_nil_of_length_eq_zero (by omega)
    rw [hsrc, List.take_nil]
  | case3 src remaining hrem buf hbuf ih =>
    have hlen : buf.length = min (min (8 <<< 20) remaining) src.length := List.length_take
    have htake : buf = src.take buf.length := by
      rw [hlen, ← List.take_eq_take_min]
    calc buf ++ copyLoop (src.drop buf.length) (remaining - buf.length)
        = src.take buf.length ++ (src.drop buf.length).take (remaining - buf.length) := by
          rw [ih, ← htake]
      _ = src.take (buf.length + (remaining - buf.length)) := List.take_add.symm
      _ = src.take remaining := by rw [Nat.add_sub_cancel' (by omega)]

theorem padSector_of_dvd {bs : Bytes} (h : SECTOR ∣ bs.length) : padSector bs = bs := by
  rw [padSector, Nat.mod_eq_zero_of_dvd h, Nat.sub_zero, Nat.mod_self, List.replicate_zero,
    List.append_nil]

/-- Padding commutes with dropping whole sectors. -/
theorem padSector_drop {bs : Bytes} {off : ℕ} (hoff : SECTOR ∣ off) (hle : off ≤ bs.length) :
    padSector (bs.drop off) = (padSector bs).drop off := by
  rw [padSector, padSector, List.drop_append_of_le_length hle, List.length_drop]
  congr 2
  rw [SECTOR] at hoff ⊢
  omega

/-- The piece written for one extent of `n` bytes is the padded image's share of it. -/
theorem padSector_piece {image : Bytes} {off n : ℕ} (hoff : SECTOR ∣ off) (hn : SECTOR ∣ n)
    (hlt : off < image.length) :
    padSector ((image.drop off).take (min n (image.length - off)))
      = ((padSector image).drop off).take n := by
  rcases Nat.lt_or_ge n (image.length - off) with h | h
  · have hlen : ((image.drop off).take n).length = n := by
      rw [List.length_take, List.length_drop]
      omega
    rw [Nat.min_eq_left h.le, padSector_of_dvd (by rwa [hlen]), padSector,
      List.drop_append_of_le_length hlt.le, List.take_append_of_le_length]
    rw [List.length_drop]
    omega
  · rw [Nat.min_eq_right h, List.take_of_length_le (by rw [List.length_drop]),
      padSector_drop hoff hlt.le, List.take_of_length_le]
    rw [List.length_drop, padSector, List.length_append, List.length_replicate]
    rw [SECTOR] at *
    omega

theorem writePlan_skip {edl : Edl} {image : Bytes} {e : PlanEntry} (h : e.take ≤ 0)
    (plan : List PlanEntry) (d : Device) :
    writePlan edl image (e :: plan) d = writePlan edl image plan d := by
  rw [writePlan, if_pos h]

theorem writePlan_write {edl : Edl} (hedl : edl.Overwrites) {image : Bytes} {sector off take : ℕ}
    (h : 0 < take) (plan : List PlanEntry) (d : Device) :
    writePlan edl image (⟨sector, off, take⟩ :: plan) d
      = writePlan edl image plan
          (overwrite d (sector * SECTOR) (padSector ((image.drop off).take take))) := by
  have htake : ¬ (take : ℤ) ≤ 0 := by omega
  have hoff : ¬ (off : ℤ) < 0 := by omega
  rw [writePlan, if_neg htake, if_neg hoff]
  simp only [copyLoop_eq, hedl sector _ d, Int.toNat_natCast, if_true]

/-- The two loops together, from an offset of whole sectors on: the rest of the padded image is
scattered along the rest of the extents. -/
theorem writePlan_planFrom {edl : Edl} (hedl : edl.Overwrites) (image : Bytes) :
    ∀ {ext : List ListedExtent}, Aligned ext → ∀ {off : ℕ}, SECTOR ∣ off → ∀ d : Device,
      ∃ plan, planFrom image.length off ext = some plan ∧
        writePlan edl image plan d
          = (0, scatter d (deviceLayout ext) ((padSector image).drop off))
  | [], _, off, _, d => ⟨[], rfl, rfl⟩
  | (phys512, len512) :: ext, hext, off, hoff, d => by
    obtain ⟨hpos, hstart, hlen⟩ := hext _ List.mem_cons_self
    dsimp only at hpos hstart hlen
    obtain ⟨n, hn⟩ : ∃ n : ℕ, len512 * 512 = n := Int.eq_ofNat_of_zero_le (by omega)
    have hndvd : SECTOR ∣ n := Int.natCast_dvd_natCast.mp (hn ▸ hlen)
    have hrest : Aligned ext := fun e he => hext e (List.mem_cons_of_mem _ he)
    have hgood : ¬ ((SUPER_OFFSET + phys512 * 512) % SECTOR ≠ 0 ∨
        len512 * 512 % (SECTOR : ℤ) ≠ 0) := by
      rw [not_or, not_not, not_not]
      exact ⟨Nat.mod_eq_zero_of_dvd hstart, Int.emod_eq_zero_of_dvd hlen⟩
    have htake : min (n : ℤ) (max 0 ((image.length : ℤ) - off))
        = ((min n (image.length - off) : ℕ) : ℤ) := by omega
    have hsector :
        (SUPER_OFFSET + phys512 * 512) / SECTOR * SECTOR = SUPER_OFFSET + phys512 * 512 :=
      Nat.div_mul_cancel hstart
    obtain ⟨plan, hplan, hwrite⟩ := writePlan_planFrom hedl image hrest (Nat.dvd_add hoff hndvd)
      (overwrite d (SUPER_OFFSET + phys512 * 512) (((padSector image).drop off).take n))
    rw [planFrom, if_neg hgood, hn, htake, ← Nat.cast_add, hplan, Option.map_some]
    refine ⟨_, rfl, ?_⟩
    rw [deviceLayout_cons, hn, Int.toNat_natCast, scatter, List.drop_drop, ← hwrite]
    rcases Nat.eq_zero_or_pos (min n (image.length - off)) with hzero | hsome
    · -- nothing of the image is left for this extent
      have hnil : ((padSector image).drop off).take n = [] := by
        rcases Nat.eq_zero_or_pos n with rfl | hnpos
        · rw [List.take_zero]
        · rw [List.drop_eq_nil_of_le, List.take_nil]
          rw [padSector, List.length_append, List.length_replicate]
          rw [SECTOR] at *
          omega
      rw [writePlan_skip (by simp [hzero]), hnil, overwrite_nil]
    · rw [writePlan_write hedl hsome, padSector_piece hoff hndvd (by omega), hsector]

/-- **An accepted image is scattered**, padded to whole sectors, over the partition's extents. -/
theorem main_eq_scatter {edl : Edl} (hedl : edl.Overwrites) {image : Bytes} {listing : List Text}
    {part : Text} (hne : extentsFor listing part ≠ []) (hal : Aligned (extentsFor listing part))
    (hfit : (image.length : ℤ) ≤ totalBytes (extentsFor listing part)) (d : Device) :
    main edl image listing part true d
      = (0, scatter d (deviceLayout (extentsFor listing part)) (padSector image)) := by
  obtain ⟨plan, hplan, hwrite⟩ := writePlan_planFrom hedl image hal (dvd_zero SECTOR) d
  rw [List.drop_zero] at hwrite
  rw [main, if_neg hne, if_neg (by omega)]
  simp only [show planFrom image.length 0 (extentsFor listing part) = some plan from hplan]
  exact hwrite

end FlashLogical

end PalmaEos
