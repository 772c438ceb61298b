import PalmaEos.DeltaFlash

/-!
# The delta flash against the full flash

What `edl-delta-flash.py` promises is that it leaves the device a full flash of the new image
would leave. Here the two paths are compared on the same device, which holds the old image.

A run of changed sectors is written in one piece from the device sector of its first sector.
That is where the sectors belong as long as the run stays inside an extent, or crosses into an
extent that follows on the device as well. Where it crosses into an extent that lies elsewhere,
the rest of the run overwrites whatever comes after the first extent.

## Main results

* `blocks_scatter` — the full flash, as a batch of sector writes
* `main_device_eq_iff` — the devices agree iff `RunsFollowExtents`
* `runsFollowExtents_iff` — the same condition, run by run as the script writes
* `runsFollowExtents_of_contiguous` — the usual way to meet that condition
-/

namespace PalmaEos

namespace DeltaFlash

/-- The device sector that a full flash writes image sector `s` to. -/
def fullSector (ext : List ListedExtent) (s : ℕ) : ℕ :=
  ((deviceLayout ext).place (s * SECTOR)).getD 0 / SECTOR

/-- What a full flash changes on a device that holds the old image. -/
def fullWrites (new : Bytes) (ext : List ListedExtent) (changed : List ℕ) : List (ℕ × Bytes) :=
  changed.map fun s => (fullSector ext s, blockOf SECTOR new s)

/-- The images differ in sector `s`. -/
def Differs (old new : Bytes) (s : ℕ) : Prop :=
  s * SECTOR < new.length ∧ blockOf SECTOR old s ≠ blockOf SECTOR new s

/-- The images differ in all sectors from `a` to `t`, and not in the one in front of `a`. -/
def DiffersFrom (old new : Bytes) (a t : ℕ) : Prop :=
  a ≤ t ∧ (∀ i, a ≤ i → i ≤ t → Differs old new i) ∧ ∀ p, p + 1 = a → ¬ Differs old new p

/-- Byte `o` of an image is byte `a` of the device, when the image fills one extent after the
other: the extents `pre` hold what is in front of it. A listing can give an extent a length below
zero, so `pre` and all that it begins with are asked to end before `o`. -/
def PutsAt (ext : List ListedExtent) (o a : ℕ) : Prop :=
  ∃ pre e post, ext = pre ++ e :: post ∧
    (∀ front, front <+: pre → totalBytes front ≤ o) ∧ (o : ℤ) < totalBytes pre + e.2 * 512 ∧
      (a : ℤ) = SUPER_OFFSET + e.1 * 512 + (o - totalBytes pre)

/-- The images are the same, or the image fits into `deltaExt` and each sector `s` in which they
differ gets its contents: a stretch of differing sectors, laid on consecutive device sectors from
the place of its first sector `a` on, has a sector `t` that comes to the place of `s` and has the
same new contents. Usually `t` is `s` itself. The stretches are placed by `deltaExt`, the extents as
`edl-delta-flash.py` reads them, and the image by `fullExt`, as `flash-logical-via-edl.py` does. -/
def RunsFollowExtents (fullExt deltaExt : List ListedExtent) (old new : Bytes) : Prop :=
  (∀ s, ¬ Differs old new s) ∨ (new.length : ℤ) ≤ totalBytes deltaExt ∧
    ∀ s, Differs old new s → ∃ a t, DiffersFrom old new a t ∧
      ∃ x y, PutsAt deltaExt (a * SECTOR) x ∧
        (deviceLayout fullExt).place (s * SECTOR) = some y ∧
        x / SECTOR + (t - a) = y / SECTOR ∧ blockOf SECTOR new t = blockOf SECTOR new s

/-! ### The full flash, sector by sector -/

theorem SECTOR_pos : 0 < SECTOR := by rw [SECTOR]; omega

/-- Where the full flash puts image sector `s`, byte by byte. -/
theorem place_fullSector {ext : List ListedExtent} (hal : Aligned ext) {s : ℕ}
    (hs : s * SECTOR < (deviceLayout ext).size) {i : ℕ} (hi : i < SECTOR) :
    (deviceLayout ext).place (s * SECTOR + i) = some (fullSector ext s * SECTOR + i) := by
  obtain ⟨a, ha⟩ := Layout.exists_place_of_lt hs
  obtain ⟨hdvd, hbytes⟩ := Layout.place_block (aligned_deviceLayout hal) ha
  rw [hbytes i hi, fullSector, ha, Option.getD_some, Nat.div_mul_cancel hdvd]

theorem fullSector_inj {ext : List ListedExtent} (hal : Aligned ext)
    (hsep : (deviceLayout ext).Separate) {s t : ℕ} (hs : s * SECTOR < (deviceLayout ext).size)
    (ht : t * SECTOR < (deviceLayout ext).size) (h : fullSector ext s = fullSector ext t) :
    s = t := by
  have hps := place_fullSector hal hs SECTOR_pos
  have hpt := place_fullSector hal ht SECTOR_pos
  rw [h] at hps
  have := hsep.place_inj hps hpt
  exact Nat.eq_of_mul_eq_mul_right SECTOR_pos (by omega)

/-- A device sector that holds no sector of the image is not touched. -/
theorem blocks_scatter_of_not_image {ext : List ListedExtent} (hal : Aligned ext)
    (hsep : (deviceLayout ext).Separate) {new : Bytes}
    (hfit : new.length ≤ (deviceLayout ext).size) (d : Device) {y : ℕ}
    (hy : ∀ s, s * SECTOR < new.length → fullSector ext s ≠ y) :
    blocks SECTOR (scatter d (deviceLayout ext) new) y = blocks SECTOR d y := by
  refine readAt_congr ?_
  intro i hi
  by_cases hcov : ∃ s ∈ deviceLayout ext, Layout.Covers s (y * SECTOR + i)
  · obtain ⟨s, hs, hcov⟩ := hcov
    obtain ⟨o, ho⟩ := Layout.exists_place_of_covers hs hcov
    have hout : new.length ≤ o := by
      by_contra hlt
      have hsector : o / SECTOR * SECTOR < new.length := by
        have := Nat.div_mul_le_self o SECTOR
        omega
      have hmod := Nat.mod_lt o SECTOR_pos
      have hp := place_fullSector hal (s := o / SECTOR) (by omega) hmod
      rw [Nat.div_add_mod', ho, Option.some.injEq] at hp
      refine hy _ hsector ?_
      have := congrArg (· / SECTOR) hp
      simpa only [Nat.mul_comm _ SECTOR, Nat.mul_add_div SECTOR_pos, Nat.div_eq_of_lt hi,
        Nat.div_eq_of_lt hmod, Nat.add_zero] using this.symm
    rw [scatter_place hsep ho, List.getElem?_eq_none hout, Option.getD_none]
  · exact scatter_outside fun s hs hc => hcov ⟨s, hs, hc⟩

/-- A device sector that holds sector `s` of the image gets its new contents. -/
theorem blocks_scatter_fullSector {ext : List ListedExtent} (hal : Aligned ext)
    (hsep : (deviceLayout ext).Separate) {new : Bytes} (hmul : SECTOR ∣ new.length)
    (hfit : new.length ≤ (deviceLayout ext).size) (d : Device) {s : ℕ}
    (hs : s * SECTOR < new.length) :
    blocks SECTOR (scatter d (deviceLayout ext) new) (fullSector ext s) = blockOf SECTOR new s := by
  have hend : s * SECTOR + SECTOR ≤ new.length := by
    rw [← Nat.succ_mul]
    exact block_end_le hmul hs
  refine List.ext_getElem? ?_
  intro i
  rw [blocks, getElem?_readAt, blockOf, getElem?_window]
  split_ifs with hi
  · rw [scatter_place hsep (place_fullSector hal (by omega) hi),
      List.getElem?_eq_getElem (by omega), Option.getD_some]
  · rfl

/-- A device that begins with the old image holds its sector `s` at `fullSector ext s`. -/
theorem blocks_of_holds {ext : List ListedExtent} (hal : Aligned ext) {old : Bytes}
    (hmul : SECTOR ∣ old.length) (hfit : old.length ≤ (deviceLayout ext).size) {d : Device}
    (hold : (gather d (deviceLayout ext)).take old.length = old) {s : ℕ}
    (hs : s * SECTOR < old.length) :
    blocks SECTOR d (fullSector ext s) = blockOf SECTOR old s := by
  have hend : s * SECTOR + SECTOR ≤ old.length := by
    rw [← Nat.succ_mul]
    exact block_end_le hmul hs
  refine List.ext_getElem? ?_
  intro i
  rw [blocks, getElem?_readAt, blockOf, getElem?_window]
  split_ifs with hi
  · rw [← hold, List.getElem?_take, if_pos (by omega), getElem?_gather,
      place_fullSector hal (by omega) hi, Option.map_some]
  · rfl

theorem nodup_fullWrites {ext : List ListedExtent} (hal : Aligned ext)
    (hsep : (deviceLayout ext).Separate) {old new : Bytes}
    (hfit : new.length ≤ (deviceLayout ext).size) :
    ((fullWrites new ext (changedSectors old new)).map Prod.fst).Nodup := by
  rw [fullWrites, List.map_map]
  refine List.Nodup.map_on (fun s hs t ht h => ?_)
    ((sorted_changedSectors old new).imp Nat.ne_of_lt)
  have hs := (mem_changedSectors.mp hs).1
  have ht := (mem_changedSectors.mp ht).1
  exact fullSector_inj hal hsep (by omega) (by omega) h

/-- **The full flash as a batch of sector writes.** The sectors that did not change are left out:
the device holds them already. -/
theorem blocks_scatter {ext : List ListedExtent} (hal : Aligned ext)
    (hsep : (deviceLayout ext).Separate) {old new : Bytes} (hsize : old.length = new.length)
    (hmul : SECTOR ∣ new.length) (hfit : new.length ≤ (deviceLayout ext).size) {d : Device}
    (hold : (gather d (deviceLayout ext)).take old.length = old) :
    blocks SECTOR (scatter d (deviceLayout ext) new)
      = writeAll (blocks SECTOR d) (fullWrites new ext (changedSectors old new)) := by
  funext y
  by_cases hy : ∃ s, s * SECTOR < new.length ∧ fullSector ext s = y
  · obtain ⟨s, hs, rfl⟩ := hy
    rw [blocks_scatter_fullSector hal hsep hmul hfit d hs]
    by_cases hchanged : s ∈ changedSectors old new
    · exact (writeAll_of_mem (nodup_fullWrites hal hsep hfit)
        (p := (fullSector ext s, blockOf SECTOR new s))
        (List.mem_map.mpr ⟨s, hchanged, rfl⟩)).symm
    · have hsame : blockOf SECTOR old s = blockOf SECTOR new s :=
        not_not.mp fun hne => hchanged (mem_changedSectors.mpr ⟨hs, hne⟩)
      rw [writeAll_of_not_mem, blocks_of_holds hal (hsize ▸ hmul) (by omega) hold (by omega), hsame]
      intro p hp hkey
      obtain ⟨t, ht, rfl⟩ := List.mem_map.mp hp
      have htlt := (mem_changedSectors.mp ht).1
      rw [fullSector_inj hal hsep (by omega) (by omega) hkey] at ht
      exact hchanged ht
  · push Not at hy
    rw [blocks_scatter_of_not_image hal hsep hfit d hy, writeAll_of_not_mem]
    intro p hp
    obtain ⟨s, hs, rfl⟩ := List.mem_map.mp hp
    exact hy s (mem_changedSectors.mp hs).1

/-- Each changed sector's write is one that changes the device. -/
theorem fullWrites_ne {ext : List ListedExtent} (hal : Aligned ext) {old new : Bytes}
    (hsize : old.length = new.length) (hmul : SECTOR ∣ new.length)
    (hfit : new.length ≤ (deviceLayout ext).size) {d : Device}
    (hold : (gather d (deviceLayout ext)).take old.length = old) :
    ∀ p ∈ fullWrites new ext (changedSectors old new), blocks SECTOR d p.1 ≠ p.2 := by
  intro p hp
  obtain ⟨s, hs, rfl⟩ := List.mem_map.mp hp
  obtain ⟨hlt, hne⟩ := mem_changedSectors.mp hs
  rwa [blocks_of_holds hal (hsize ▸ hmul) (by omega) hold (by omega)]

/-! ### The delta flash, sector by sector -/

/-- The runs of the changed sectors lie inside the image. -/
theorem run_le_length {old new : Bytes} (hmul : SECTOR ∣ new.length) {r : ℕ × ℕ}
    (hr : r ∈ coalesce (changedSectors old new)) : (r.1 + r.2) * SECTOR ≤ new.length := by
  have hpos := pos_of_mem_coalesce hr
  have hlast := mem_of_mem_coalesce hr (j := r.2 - 1) (by omega)
  have := block_end_le hmul (mem_changedSectors.mp hlast).1
  rwa [Nat.add_assoc, Nat.sub_add_cancel hpos] at this

/-- **The delta flash as a batch of sector writes.** -/
theorem blocks_main {edl : Edl} (hedl : edl.Overwrites) {old new : Bytes} {listing : List Text}
    {part : Text} {maxPct : ℤ} (hsize : old.length = new.length) (hmul : SECTOR ∣ new.length)
    (hfit : (new.length : ℤ) ≤ totalBytes (extentsFor listing part))
    (hpct : ¬ exceeds maxPct (changedSectors old new).length new.length) (d : Device) :
    blocks SECTOR (main edl old new listing part maxPct true d).2 = writeAll (blocks SECTOR d)
      (runWrites new (extentsFor listing part) (coalesce (changedSectors old new))) := by
  have hnone : changedSectors old new = [] → writeAll (blocks SECTOR d)
      (runWrites new (extentsFor listing part) (coalesce (changedSectors old new)))
        = blocks SECTOR d := by
    intro h
    rw [h, coalesce, runWrites, List.flatMap_nil, writeAll_nil]
  rw [main, if_neg (not_not.mpr hsize)]
  dsimp only
  split_ifs with hext hbig hchanged hgo
  · refine (hnone (List.eq_nil_iff_forall_not_mem.mpr fun s hs => ?_)).symm
    have := (mem_changedSectors.mp hs).1
    rw [hext, totalBytes, List.map_nil, List.sum_nil] at hfit
    omega
  · omega
  · exact (hnone hchanged).symm
  · exact absurd hgo (by decide)
  · refine blocks_writeRuns hedl (fun r hr => run_le_length hmul hr) (fun r hr => ?_) d
    have hpos := pos_of_mem_coalesce hr
    have := (mem_changedSectors.mp (mem_of_mem_coalesce hr hpos)).1
    rw [Nat.add_zero] at this
    exact exists_devSector (by omega)

theorem fullWrites_subset_iff {fullExt deltaExt : List ListedExtent} {new : Bytes}
    {changed : List ℕ} :
    fullWrites new fullExt changed ⊆ runWrites new deltaExt (coalesce changed) ↔
      ∀ s ∈ changed, ∃ r ∈ coalesce changed, ∃ j < r.2, ∃ x,
        devSector deltaExt (r.1 * SECTOR) = some x ∧ x + j = fullSector fullExt s ∧
          blockOf SECTOR new (r.1 + j) = blockOf SECTOR new s := by
  constructor
  · intro hsub s hs
    obtain ⟨r, hr, hw⟩ := List.mem_flatMap.mp (hsub (List.mem_map.mpr ⟨s, hs, rfl⟩))
    obtain ⟨x, hx, j, hj, hp⟩ := mem_writesOfRun.mp hw
    obtain ⟨hkey, hval⟩ := Prod.mk.injEq .. ▸ hp
    exact ⟨r, hr, j, hj, x, hx, hkey.symm, hval.symm⟩
  · intro h p hp
    obtain ⟨s, hs, rfl⟩ := List.mem_map.mp hp
    obtain ⟨r, hr, j, hj, x, hx, hkey, hval⟩ := h s hs
    refine List.mem_flatMap.mpr ⟨r, hr, mem_writesOfRun.mpr ⟨x, hx, j, hj, ?_⟩⟩
    rw [hkey, hval]

/-! ### `dev_sector` and the full flash -/

/-- From any position on, `dev_sector` follows the layout. -/
theorem devSectorFrom_eq_place {o : ℕ} : ∀ {ext : List ListedExtent}, Aligned ext → ∀ pos : ℤ,
    devSectorFrom (pos + o) pos ext = ((deviceLayout ext).place o).map (· / SECTOR)
  | [], _, _ => rfl
  | (phys, ln) :: ext, hal, pos => by
    obtain ⟨hpos, -, -⟩ := hal _ List.mem_cons_self
    dsimp only at hpos
    obtain ⟨n, hn⟩ : ∃ n : ℕ, ln * 512 = n := Int.eq_ofNat_of_zero_le (by omega)
    rw [devSectorFrom, deviceLayout_cons]
    simp only [hn, Int.toNat_natCast]
    rcases Nat.lt_or_ge o n with h | h
    · rw [if_pos (by omega), Layout.place_cons_of_lt h, Option.map_some, add_sub_cancel_left]
      congr 1
    · obtain ⟨m, rfl⟩ := Nat.exists_eq_add_of_le h
      have hrest : Aligned ext := fun e he => hal e (List.mem_cons_of_mem _ he)
      rw [if_neg (by omega), Layout.place_cons_of_le h, Nat.add_sub_cancel_left,
        ← devSectorFrom_eq_place hrest (pos + n), Nat.cast_add, add_assoc]

/-- **On one sector the two scripts agree**: `dev_sector` gives the sector that the full flash
writes. -/
theorem devSector_eq_fullSector {ext : List ListedExtent} (hal : Aligned ext) {s : ℕ}
    (hs : s * SECTOR < (deviceLayout ext).size) :
    devSector ext (s * SECTOR) = some (fullSector ext s) := by
  have := devSectorFrom_eq_place (o := s * SECTOR) hal 0
  obtain ⟨a, ha⟩ := Layout.exists_place_of_lt hs
  rw [Int.zero_add, ha, Option.map_some] at this
  rw [devSector, this, fullSector, ha, Option.getD_some]

@[simp] theorem totalBytes_nil : totalBytes [] = 0 := rfl

theorem totalBytes_cons (e : ListedExtent) (ext : List ListedExtent) :
    totalBytes (e :: ext) = e.2 * 512 + totalBytes ext := by
  rw [totalBytes, totalBytes, List.map_cons, List.sum_cons, Int.add_mul]

/-- **`dev_sector` is the sector of the place**, wherever the walk over the extents has got to. -/
theorem devSectorFrom_eq_some {imgOff : ℤ} {x : ℕ} : ∀ {pos : ℤ} {ext : List ListedExtent},
    pos ≤ imgOff → (devSectorFrom imgOff pos ext = some x ↔
      ∃ pre e post, ext = pre ++ e :: post ∧
        (∀ front, front <+: pre → pos + totalBytes front ≤ imgOff) ∧
        imgOff < pos + totalBytes pre + e.2 * 512 ∧
        ((SUPER_OFFSET + e.1 * 512 + (imgOff - (pos + totalBytes pre))) / SECTOR).toNat = x)
  | pos, [], _ => by
    simp only [devSectorFrom, reduceCtorEq, false_iff]
    rintro ⟨pre, e, post, hext, -⟩
    exact absurd hext.symm (List.append_ne_nil_of_right_ne_nil pre (List.cons_ne_nil e post))
  | pos, e :: ext, hpos => by
    rw [devSectorFrom]
    split_ifs with h
    · rw [Option.some.injEq]
      constructor
      · rintro rfl
        refine ⟨[], e, ext, rfl, ?_, by rw [totalBytes_nil]; omega, ?_⟩
        · intro front hfront
          rw [List.prefix_nil.mp hfront, totalBytes_nil]
          omega
        · rw [totalBytes_nil, Int.add_zero]
      · rintro ⟨pre, e', post, heq, hfront, -, hx⟩
        cases pre with
        | nil =>
          obtain ⟨rfl, -⟩ := List.cons.injEq .. ▸ heq
          rwa [totalBytes_nil, Int.add_zero] at hx
        | cons b pre =>
          -- the walk would have gone past the extent that holds the offset
          obtain ⟨rfl, -⟩ := List.cons.injEq .. ▸ heq
          have := hfront [e] ⟨pre, rfl⟩
          rw [totalBytes_cons, totalBytes_nil] at this
          omega
    · rw [devSectorFrom_eq_some (by omega)]
      constructor
      · rintro ⟨pre, e', post, rfl, hfront, hlt, hx⟩
        refine ⟨e :: pre, e', post, rfl, ?_, by rw [totalBytes_cons]; omega, ?_⟩
        · intro front hf
          cases front with
          | nil =>
            rw [totalBytes_nil]
            omega
          | cons b front =>
            obtain ⟨rfl, hrest⟩ := List.cons_prefix_cons.mp hf
            have := hfront front hrest
            rw [totalBytes_cons]
            omega
        · rw [totalBytes_cons, ← Int.add_assoc]
          exact hx
      · rintro ⟨pre, e', post, heq, hfront, hlt, hx⟩
        cases pre with
        | nil =>
          obtain ⟨rfl, -⟩ := List.cons.injEq .. ▸ heq
          rw [totalBytes_nil] at hlt
          omega
        | cons b pre =>
          obtain ⟨rfl, rfl⟩ := List.cons.injEq .. ▸ heq
          rw [totalBytes_cons] at hlt hx
          refine ⟨pre, e', post, rfl, ?_, by omega, by rwa [← Int.add_assoc] at hx⟩
          intro front hf
          have := hfront (e :: front) (List.cons_prefix_cons.mpr ⟨rfl, hf⟩)
          rw [totalBytes_cons] at this
          omega

/-- `dev_sector` gives the device sector that the listing places a byte in. -/
theorem devSector_eq_some {ext : List ListedExtent} {o x : ℕ} :
    devSector ext o = some x ↔ ∃ a, PutsAt ext o a ∧ a / SECTOR = x := by
  rw [devSector, devSectorFrom_eq_some (by omega)]
  simp only [Int.zero_add]
  constructor
  · rintro ⟨pre, e, post, hext, hfront, hlt, hx⟩
    have hpre := hfront pre (List.prefix_refl pre)
    obtain ⟨a, ha⟩ := Int.eq_ofNat_of_zero_le
      (a := (SUPER_OFFSET : ℤ) + e.1 * 512 + (o - totalBytes pre)) (by omega)
    refine ⟨a, ⟨pre, e, post, hext, hfront, hlt, ha.symm⟩, ?_⟩
    rw [← hx, ha, ← Int.natCast_ediv, Int.toNat_natCast]
  · rintro ⟨a, ⟨pre, e, post, hext, hfront, hlt, ha⟩, hx⟩
    refine ⟨pre, e, post, hext, hfront, hlt, ?_⟩
    rw [← ha, ← Int.natCast_ediv, Int.toNat_natCast, hx]

/-- The stretches of changed sectors are those of sectors in which the images differ. -/
theorem stretch_iff {old new : Bytes} {a t : ℕ} :
    Stretch (changedSectors old new) a t ↔ DiffersFrom old new a t := by
  simp only [Stretch, DiffersFrom, Differs, mem_changedSectors]

/-- The images do not differ exactly when no sector has changed. -/
theorem changedSectors_eq_nil {old new : Bytes} :
    changedSectors old new = [] ↔ ∀ s, ¬ Differs old new s := by
  simp only [List.eq_nil_iff_forall_not_mem, mem_changedSectors, Differs]

/-- **The condition, run by run**: where the script goes on writing, each changed sector is among
those that the runs put on its own device sector, or another one with the same new contents is. -/
theorem runsFollowExtents_iff {fullExt deltaExt : List ListedExtent} {old new : Bytes}
    (hfit : new.length ≤ (deviceLayout fullExt).size) :
    RunsFollowExtents fullExt deltaExt old new ↔
      changedSectors old new = [] ∨ (new.length : ℤ) ≤ totalBytes deltaExt ∧
        ∀ s ∈ changedSectors old new, ∃ r ∈ coalesce (changedSectors old new), ∃ j < r.2, ∃ x,
          devSector deltaExt (r.1 * SECTOR) = some x ∧ x + j = fullSector fullExt s ∧
            blockOf SECTOR new (r.1 + j) = blockOf SECTOR new s := by
  have hruns := fun a t => exists_run_iff (sorted_changedSectors old new) (a := a) (t := t)
  have hplace : ∀ s ∈ changedSectors old new, ∃ y,
      (deviceLayout fullExt).place (s * SECTOR) = some y ∧ y / SECTOR = fullSector fullExt s := by
    intro s hs
    have hlt := (mem_changedSectors.mp hs).1
    obtain ⟨y, hy⟩ := Layout.exists_place_of_lt (Nat.lt_of_lt_of_le hlt hfit)
    exact ⟨y, hy, by rw [fullSector, hy, Option.getD_some]⟩
  rw [RunsFollowExtents, changedSectors_eq_nil]
  refine or_congr_right (and_congr_right fun _ => forall_congr' fun s => ?_)
  refine ⟨fun h hs => ?_, fun h hs => ?_⟩
  · obtain ⟨a, t, hfrom, a', y, ha', hy, hkey, hsame⟩ := h (mem_changedSectors.mp hs)
    obtain ⟨r, hr, j, hj, rfl, rfl⟩ := (hruns a t).mpr (stretch_iff.mpr hfrom)
    obtain ⟨y', hy', hsector⟩ := hplace s hs
    obtain rfl := Option.some.inj (hy.symm.trans hy')
    rw [Nat.add_sub_cancel_left, hsector] at hkey
    exact ⟨r, hr, j, hj, _, devSector_eq_some.mpr ⟨a', ha', rfl⟩, hkey, hsame⟩
  · obtain ⟨r, hr, j, hj, x, hx, hkey, hsame⟩ := h (mem_changedSectors.mpr hs)
    obtain ⟨a, ha, rfl⟩ := devSector_eq_some.mp hx
    obtain ⟨y, hy, hsector⟩ := hplace s (mem_changedSectors.mpr hs)
    refine ⟨r.1, r.1 + j, stretch_iff.mp ((hruns _ _).mp ⟨r, hr, j, hj, rfl, rfl⟩), a, y, ha, hy,
      ?_, hsame⟩
    rw [Nat.add_sub_cancel_left, hkey, hsector]

/-- It is enough that both scripts read the same extents and that changed neighbours of the image
are neighbours on the device, as they are inside one extent. -/
theorem runsFollowExtents_of_contiguous {ext : List ListedExtent} (hal : Aligned ext)
    {old new : Bytes} (hfit : (new.length : ℤ) ≤ totalBytes ext)
    (hnext : ∀ s, Differs old new s → Differs old new (s + 1) →
      fullSector ext (s + 1) = fullSector ext s + 1) : RunsFollowExtents ext ext old new := by
  have hsize := size_deviceLayout hal
  rw [runsFollowExtents_iff (by omega)]
  refine Or.inr ⟨hfit, ?_⟩
  intro s hs
  obtain ⟨r, hr, j, hj, rfl⟩ := exists_run_of_mem hs
  have hdiffers : ∀ i < r.2, Differs old new (r.1 + i) := fun i hi =>
    mem_changedSectors.mp (mem_of_mem_coalesce hr hi)
  have hrun : ∀ i ≤ j, fullSector ext (r.1 + i) = fullSector ext r.1 + i := by
    intro i hi
    induction i with
    | zero => rfl
    | succ i ih =>
      have hstep := hnext (r.1 + i) (hdiffers i (by omega)) (hdiffers (i + 1) (by omega))
      rw [← Nat.add_assoc, hstep, ih (by omega), Nat.add_assoc]
  have hstart := (hdiffers 0 (by omega)).1
  refine ⟨r, hr, j, hj, _, devSector_eq_fullSector hal (by rw [Nat.add_zero] at hstart; omega), ?_,
    rfl⟩
  rw [hrun j le_rfl]

/-! ### The comparison -/

section Comparison

variable {edl : Edl} {old new : Bytes} {listing : List Text} {part : Text} {maxPct : ℤ}
  {d : Device}

/-- The two scripts leave the same device exactly when the runs follow the extents. The left side
of the `Iff` is about one device; the right side is about the listing and the images only. -/
theorem main_device_eq_iff (hedl : edl.Overwrites)
    (hne : FlashLogical.extentsFor listing part ≠ [])
    (hal : Aligned (FlashLogical.extentsFor listing part))
    (hsep : (deviceLayout (FlashLogical.extentsFor listing part)).Separate)
    (hsize : old.length = new.length) (hmul : SECTOR ∣ new.length)
    (hfit : (new.length : ℤ) ≤ totalBytes (FlashLogical.extentsFor listing part))
    (hold : (gather d (deviceLayout (FlashLogical.extentsFor listing part))).take old.length = old)
    (hpct : ¬ exceeds maxPct (changedSectors old new).length new.length) :
    (main edl old new listing part maxPct true d).2
        = (FlashLogical.main edl new listing part true d).2 ↔
      RunsFollowExtents (FlashLogical.extentsFor listing part) (extentsFor listing part) old
        new := by
  have hfit' : new.length ≤ (deviceLayout (FlashLogical.extentsFor listing part)).size := by
    have := size_deviceLayout hal
    omega
  rw [FlashLogical.main_eq_scatter hedl hne hal hfit, FlashLogical.padSector_of_dvd hmul,
    ← (blocks_injective SECTOR_pos).eq_iff, blocks_scatter hal hsep hsize hmul hfit' hold]
  rcases lt_or_ge (totalBytes (extentsFor listing part)) (new.length : ℤ) with hbig | hfit₂
  · -- the delta path's own reading of the listing is too small for the image: it refuses
    have hmain : (main edl old new listing part maxPct true d).2 = d := by
      rw [main, if_neg (not_not.mpr hsize)]
      dsimp only
      split_ifs <;> rfl
    rw [hmain, runsFollowExtents_iff hfit']
    constructor
    · intro heq
      refine Or.inl (List.eq_nil_iff_forall_not_mem.mpr fun s hs => ?_)
      have hp : (fullSector (FlashLogical.extentsFor listing part) s, blockOf SECTOR new s)
          ∈ fullWrites new (FlashLogical.extentsFor listing part) (changedSectors old new) :=
        List.mem_map.mpr ⟨s, hs, rfl⟩
      refine fullWrites_ne hal hsize hmul hfit' hold _ hp ?_
      rw [heq, writeAll_of_mem (nodup_fullWrites hal hsep hfit') hp]
    · rintro (hnil | ⟨hfit₂, -⟩)
      · rw [hnil, fullWrites, List.map_nil, writeAll_nil]
      · omega
  · rw [blocks_main hedl hsize hmul hfit₂ hpct,
      writeAll_eq_iff (nodup_fullWrites hal hsep hfit') _
        (fullWrites_ne hal hsize hmul hfit' hold),
      fullWrites_subset_iff, runsFollowExtents_iff hfit']
    · refine ⟨fun h => Or.inr ⟨hfit₂, h⟩, ?_⟩
      rintro (hnil | ⟨-, h⟩)
      · rw [hnil]
        exact fun s hs => absurd hs List.not_mem_nil
      · exact h
    · rw [fullWrites, List.length_map]
      exact length_runWrites_le new _ _

/-- **Delta flash against full flash.** On a device that holds the old image, and for a listing
that the full flash accepts, the delta flash leaves the device of a full flash, with every byte
outside the partition untouched, exactly when the runs follow the extents. -/
theorem delta_eq_full_iff (hedl : edl.Overwrites)
    (hne : FlashLogical.extentsFor listing part ≠ [])
    (hal : Aligned (FlashLogical.extentsFor listing part))
    (hsep : (deviceLayout (FlashLogical.extentsFor listing part)).Separate)
    (hsize : old.length = new.length) (hmul : SECTOR ∣ new.length)
    (hfit : (new.length : ℤ) ≤ totalBytes (FlashLogical.extentsFor listing part))
    (hold : (gather d (deviceLayout (FlashLogical.extentsFor listing part))).take old.length = old)
    (hpct : ¬ exceeds maxPct (changedSectors old new).length new.length) :
    ((main edl old new listing part maxPct true d).2
          = (FlashLogical.main edl new listing part true d).2 ∧
        ∀ a, (∀ s ∈ deviceLayout (FlashLogical.extentsFor listing part), ¬ Layout.Covers s a) →
          (main edl old new listing part maxPct true d).2 a = d a) ↔
      RunsFollowExtents (FlashLogical.extentsFor listing part) (extentsFor listing part) old
        new := by
  rw [← main_device_eq_iff hedl hne hal hsep hsize hmul hfit hold hpct, and_iff_left_iff_imp]
  intro heq a ha
  rw [heq, FlashLogical.main_eq_scatter hedl hne hal hfit]
  exact scatter_outside ha

end Comparison

/-! ### A partition in two pieces

`product_b` with one sector at device sector 45577 and the next at 45579. Sector 45578 belongs to
something else. -/

/-- The listing of the split partition. -/
def splitListing : List Text :=
  ["  Name: product_b", "    0 .. 7 linear super 8", "    8 .. 15 linear super 24",
    "  ------------------------"].map String.toList

/-- The name of the split partition. -/
def splitPart : Text := "product_b".toList

/-- The extents of the split partition. -/
def splitExtents : List ListedExtent := [(8, 8), (24, 8)]

theorem fullExtents_split : FlashLogical.extentsFor splitListing splitPart = splitExtents := by
  decide

theorem deltaExtents_split : extentsFor splitListing splitPart = splitExtents := by decide

theorem aligned_split : Aligned splitExtents := by
  simp only [Aligned, splitExtents, List.forall_mem_cons, SECTOR, SUPER_OFFSET]
  exact ⟨by decide, by decide, fun e he => absurd he List.not_mem_nil⟩

theorem separate_split : (deviceLayout splitExtents).Separate := by
  simp only [Layout.Separate, splitExtents, deviceLayout_cons, deviceLayout_nil,
    List.pairwise_cons, List.forall_mem_singleton, Layout.Covers, SUPER_OFFSET]
  exact ⟨fun a ha hb => by omega, by simp⟩

/-- An image of two sectors, each filled with one byte. -/
def twoSectors (x y : UInt8) : Bytes := List.replicate SECTOR x ++ List.replicate SECTOR y

@[simp] theorem length_twoSectors (x y : UInt8) : (twoSectors x y).length = 2 * SECTOR := by
  simp only [twoSectors, List.length_append, List.length_replicate]
  ring

/-- The device holds two sectors of zeros for `product_b`, as everywhere. -/
theorem holds_split : (gather (fun _ => 0 : Device) (deviceLayout splitExtents)).take
    (twoSectors 0 0).length = twoSectors 0 0 := by
  have hzero : ∀ a n, readAt (fun _ => 0 : Device) a n = List.replicate n 0 := fun a n => by
    rw [readAt, List.map_const', List.length_range]
  have hlen : ((8 : ℤ) * 512).toNat = SECTOR := rfl
  rw [splitExtents, deviceLayout_cons, deviceLayout_cons, deviceLayout_nil, gather_cons,
    gather_cons, gather_nil, hzero, hzero, List.append_nil, length_twoSectors, twoSectors, hlen]
  refine List.take_of_length_le ?_
  rw [List.length_append, List.length_replicate]
  omega

/-- The difference of two images of two sectors. -/
theorem changedSectors_twoSectors (x y x' y' : UInt8) :
    changedSectors (twoSectors x y) (twoSectors x' y')
      = (if x ≠ x' then [0] else []) ++ (if y ≠ y' then [1] else []) := by
  have hne : ∀ z : UInt8, List.replicate SECTOR z ≠ [] := fun z h =>
    SECTOR_pos.ne' (List.replicate_eq_nil_iff _ |>.mp h)
  have htake : ∀ z w : UInt8, (twoSectors z w).take SECTOR = List.replicate SECTOR z := fun z w =>
    List.take_left' List.length_replicate
  have hdrop : ∀ z w : UInt8, (twoSectors z w).drop SECTOR = List.replicate SECTOR w := fun z w =>
    List.drop_left' List.length_replicate
  have hrep : ∀ z w : UInt8, List.replicate SECTOR z ≠ List.replicate SECTOR w ↔ z ≠ w :=
    fun z w => not_congr (List.replicate_right_inj SECTOR_pos.ne')
  have hall : ∀ z : UInt8, (List.replicate SECTOR z).take SECTOR = List.replicate SECTOR z :=
    fun z => List.take_of_length_le (by rw [List.length_replicate])
  have hnone : ∀ z : UInt8, (List.replicate SECTOR z).drop SECTOR = [] := fun z =>
    List.drop_eq_nil_of_le (by rw [List.length_replicate])
  rw [changedSectors, diffFrom, if_neg (by simp [twoSectors, hne]), htake, htake, hdrop, hdrop,
    diffFrom, if_neg (hne y'), hall, hall, hnone, hnone, diffFrom, if_pos rfl, List.append_nil]
  simp only [hrep]

/-- When only the second sector changes, the delta flash does the same as the full flash. -/
theorem delta_eq_full_split :
    (main overwritingEdl (twoSectors 0 0) (twoSectors 0 1) splitListing splitPart 100 true
          (fun _ => 0)).2
        = (FlashLogical.main overwritingEdl (twoSectors 0 1) splitListing splitPart true
          (fun _ => 0)).2 ∧
      ∀ a, (∀ s ∈ deviceLayout (FlashLogical.extentsFor splitListing splitPart),
          ¬ Layout.Covers s a) →
        (main overwritingEdl (twoSectors 0 0) (twoSectors 0 1) splitListing splitPart 100 true
          (fun _ => 0)).2 a = 0 := by
  refine (delta_eq_full_iff (fun _ _ _ => rfl) ?_ ?_ ?_ ?_ ?_ ?_ ?_ ?_).mpr ?_
  · rw [fullExtents_split]; exact List.cons_ne_nil _ _
  · rw [fullExtents_split]; exact aligned_split
  · rw [fullExtents_split]; exact separate_split
  · simp
  · simp
  · rw [fullExtents_split]; simp [totalBytes, splitExtents, SECTOR]
  · rw [fullExtents_split]; exact holds_split
  · simp [exceeds, changedSectors_twoSectors, SECTOR]
  · rw [fullExtents_split, deltaExtents_split]
    refine runsFollowExtents_of_contiguous aligned_split
      (by simp [totalBytes, splitExtents, SECTOR]) fun s hs hs' => ?_
    have hlast := mem_changedSectors.mpr hs
    have hnext := mem_changedSectors.mpr hs'
    simp [changedSectors_twoSectors] at hlast hnext
    omega

/-- When both sectors change they form one run, and its second sector goes to device sector
45578 instead of 45579. -/
theorem delta_ne_full_split :
    overwritingEdl.Overwrites ∧ FlashLogical.extentsFor splitListing splitPart ≠ [] ∧
      Aligned (FlashLogical.extentsFor splitListing splitPart) ∧
      (deviceLayout (FlashLogical.extentsFor splitListing splitPart)).Separate ∧
      (twoSectors 0 0).length = (twoSectors 1 1).length ∧ SECTOR ∣ (twoSectors 1 1).length ∧
      ((twoSectors 1 1).length : ℤ)
        ≤ totalBytes (FlashLogical.extentsFor splitListing splitPart) ∧
      (gather (fun _ => 0 : Device)
          (deviceLayout (FlashLogical.extentsFor splitListing splitPart))).take
        (twoSectors 0 0).length = twoSectors 0 0 ∧
      ¬ exceeds 100 (changedSectors (twoSectors 0 0) (twoSectors 1 1)).length
        (twoSectors 1 1).length ∧
      (main overwritingEdl (twoSectors 0 0) (twoSectors 1 1) splitListing splitPart 100 true
          (fun _ => 0)).2
        ≠ (FlashLogical.main overwritingEdl (twoSectors 1 1) splitListing splitPart true
          (fun _ => 0)).2 := by
  have hedl : overwritingEdl.Overwrites := fun _ _ _ => rfl
  have hne : splitExtents ≠ [] := List.cons_ne_nil _ _
  have hfit : ((twoSectors 1 1).length : ℤ) ≤ totalBytes splitExtents := by
    simp [totalBytes, splitExtents, SECTOR]
  have hpct : ¬ exceeds 100 (changedSectors (twoSectors 0 0) (twoSectors 1 1)).length
      (twoSectors 1 1).length := by
    simp [exceeds, changedSectors_twoSectors, SECTOR]
  rw [fullExtents_split]
  refine ⟨hedl, hne, aligned_split, separate_split, by simp, by simp, hfit, holds_split, hpct, ?_⟩
  rw [Ne, main_device_eq_iff hedl (by rwa [fullExtents_split])
    (by rw [fullExtents_split]; exact aligned_split)
    (by rw [fullExtents_split]; exact separate_split) (by simp) (by simp)
    (by rwa [fullExtents_split]) (by rw [fullExtents_split]; exact holds_split) hpct,
    fullExtents_split, deltaExtents_split,
    runsFollowExtents_iff (by rw [length_twoSectors]; decide)]
  have hchanged : changedSectors (twoSectors 0 0) (twoSectors 1 1) = [0, 1] := by
    simp [changedSectors_twoSectors]
  rw [hchanged]
  rintro (hnil | ⟨-, hall⟩)
  · exact absurd hnil (List.cons_ne_nil _ _)
  · obtain ⟨r, hr, j, hj, x, hx, hkey, -⟩ := hall 1 (by simp)
    have hrun : r = (0, 2) := by simpa [coalesce, coalesceFrom] using hr
    have hfirst : devSector splitExtents 0 = some 45577 := by decide
    have hsecond : fullSector splitExtents 1 = 45579 := by decide
    subst hrun
    rw [Nat.zero_mul, hfirst, Option.some.injEq] at hx
    rw [hsecond] at hkey
    dsimp only at hj
    omega

end DeltaFlash

end PalmaEos
