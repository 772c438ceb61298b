import PalmaEos.DeltaAgainstFull

/-!
# The delta flash, sector by sector

`edl-delta-flash.py` says that its sector mapping is the arithmetic of `flash-logical-via-edl.py`.
Here the two are compared on single image sectors: `dev_sector` walks over the extents for each
sector anew, the plan adds up their lengths once.

Both scripts must read the same extents for that. They do not from every text: without a line of
`---` between two partitions the full flash reads on into the second one, and the delta flash does
not. And a listing may have an extent that ends before it begins. Then the plan goes back in the
image and writes some of it twice.

## Main results

* `coalesce_separate` — the runs are ordered and never adjacent
* `devSector_of_plan` — `dev_sector` gives a sector that the plan writes to
* `planWrites_unique` — the only one, when no extent goes back
* `delta_plan_exact` — the runs and the sectors together
-/

namespace PalmaEos

namespace DeltaFlash

open FlashLogical (PlanEntry planFrom)

/-- The plan writes image sector `s` to device sector `x`. -/
def PlanWrites (plan : List PlanEntry) (s x : ℕ) : Prop :=
  ∃ e ∈ plan, e.off ≤ s * SECTOR ∧ (s + 1) * SECTOR ≤ e.off + e.take ∧
    (x * SECTOR : ℤ) = e.sector * SECTOR + (s * SECTOR - e.off)

/-- The file that is written for an entry has the sectors of the image that `PlanWrites` takes it
to have. -/
theorem window_file {image : Bytes} {off take s : ℕ} (hlo : off ≤ s * SECTOR)
    (hhi : (s + 1) * SECTOR ≤ off + take) (hin : (s + 1) * SECTOR ≤ image.length) :
    window (FlashLogical.padSector (FlashLogical.copyLoop (image.drop off) take))
      (s * SECTOR - off) SECTOR = blockOf SECTOR image s := by
  rw [Nat.succ_mul] at hhi hin
  rw [FlashLogical.copyLoop_eq, FlashLogical.padSector, window_append_left, ← window,
    window_window (by omega), Nat.add_sub_cancel' hlo, blockOf]
  rw [List.length_take, List.length_drop]
  omega

/-! ### The runs -/

theorem coalesceFrom_separate : ∀ {s prev : ℕ} {cs : List ℕ}, s ≤ prev →
    (prev :: cs).Pairwise (· < ·) →
      (∀ r ∈ coalesceFrom s prev cs, s ≤ r.1) ∧
        (coalesceFrom s prev cs).Pairwise fun r r' => r.1 + r.2 < r'.1
  | s, prev, [], _, _ => by simp [coalesceFrom]
  | s, prev, c :: cs, hle, hcs => by
    obtain ⟨hprev, hcs⟩ := List.pairwise_cons.mp hcs
    have hc := hprev c List.mem_cons_self
    rw [coalesceFrom]
    split_ifs with hnext
    · exact coalesceFrom_separate (by omega) hcs
    · obtain ⟨hstart, hsep⟩ := coalesceFrom_separate le_rfl hcs
      refine ⟨List.forall_mem_cons.mpr ⟨le_rfl, fun r hr => ?_⟩,
        List.pairwise_cons.mpr ⟨fun r hr => ?_, hsep⟩⟩
      · have := hstart r hr
        omega
      · have := hstart r hr
        dsimp only
        omega

/-- **The runs come in order, and between two of them there is a sector that has not changed.** -/
theorem coalesce_separate {cs : List ℕ} (hcs : cs.Pairwise (· < ·)) :
    (coalesce cs).Pairwise fun r r' => r.1 + r.2 < r'.1 := by
  cases cs with
  | nil => exact List.Pairwise.nil
  | cons c cs => exact (coalesceFrom_separate le_rfl hcs).2

theorem mem_iff_exists_run {cs : List ℕ} {c : ℕ} :
    c ∈ cs ↔ ∃ r ∈ coalesce cs, r.1 ≤ c ∧ c < r.1 + r.2 := by
  constructor
  · intro hc
    obtain ⟨r, hr, j, hj, rfl⟩ := exists_run_of_mem hc
    exact ⟨r, hr, by omega, by omega⟩
  · rintro ⟨⟨st, n⟩, hr, hlo, hhi⟩
    dsimp only at hlo hhi
    obtain ⟨j, rfl⟩ := Nat.exists_eq_add_of_le hlo
    exact mem_of_mem_coalesce hr (by omega)

/-! ### The sectors -/

section Plan

variable {size : ℕ} {phys : ℕ} {ln : ℤ} {ext : List ListedExtent} {plan : List PlanEntry} {pos : ℤ}

/-- What a plan begins with. -/
theorem planFrom_cons (h : planFrom size pos ((phys, ln) :: ext) = some plan) :
    SECTOR ∣ SUPER_OFFSET + phys * 512 ∧ (SECTOR : ℤ) ∣ ln * 512 ∧
      ∃ rest, planFrom size (pos + ln * 512) ext = some rest ∧
        plan = ⟨(SUPER_OFFSET + phys * 512) / SECTOR, pos, min (ln * 512) (max 0 (size - pos))⟩ ::
          rest := by
  rw [planFrom] at h
  dsimp only at h
  split_ifs at h with hal
  rw [not_or, not_not, not_not] at hal
  obtain ⟨rest, hrest, rfl⟩ := Option.map_eq_some_iff.mp h
  exact ⟨Nat.dvd_of_mod_eq_zero hal.1, Int.dvd_of_emod_eq_zero hal.2, rest, hrest, rfl⟩

/-- The first extent of a plan, as `dev_sector` sees it. -/
theorem planWrites_head {s : ℕ} (h : planFrom size pos ((phys, ln) :: ext) = some plan)
    (hpos : (SECTOR : ℤ) ∣ pos) (hlo : pos ≤ (s * SECTOR : ℕ))
    (hlt : ((s * SECTOR : ℕ) : ℤ) < pos + ln * 512) (hsize : (s + 1) * SECTOR ≤ size) :
    PlanWrites plan s
      ((SUPER_OFFSET + phys * 512 + ((s * SECTOR : ℕ) - pos)) / SECTOR : ℤ).toNat := by
  obtain ⟨hstart, hlen, rest, -, rfl⟩ := planFrom_cons h
  refine ⟨_, List.mem_cons_self, ?_⟩
  dsimp only
  rw [SECTOR] at *
  generalize SUPER_OFFSET = o at *
  refine ⟨by omega, by omega, by omega⟩

theorem devSectorFrom_of_plan {s : ℕ} (more : List ListedExtent) (hsize : (s + 1) * SECTOR ≤ size) :
    ∀ {ext : List ListedExtent} {pos : ℤ} {plan : List PlanEntry},
      planFrom size pos ext = some plan → (SECTOR : ℤ) ∣ pos → pos ≤ (s * SECTOR : ℕ) →
        ((s * SECTOR : ℕ) : ℤ) < pos + totalBytes ext →
          ∃ x, devSectorFrom (s * SECTOR : ℕ) pos (ext ++ more) = some x ∧ PlanWrites plan s x
  | [], pos, _, _, _, hlo, hlt => by
    rw [totalBytes, List.map_nil, List.sum_nil] at hlt
    omega
  | (phys, ln) :: ext, pos, plan, h, hpos, hlo, hlt => by
    rw [List.cons_append, devSectorFrom]
    split_ifs with hhere
    · exact ⟨_, rfl, planWrites_head h hpos hlo hhere hsize⟩
    · obtain ⟨-, hlen, rest, hrest, rfl⟩ := planFrom_cons h
      rw [totalBytes, List.map_cons, List.sum_cons, add_mul, ← totalBytes] at hlt
      obtain ⟨x, hx, e, he, hwrites⟩ := devSectorFrom_of_plan more hsize hrest
        (Int.dvd_add hpos hlen) (not_lt.mp hhere) (by omega)
      exact ⟨x, hx, e, List.mem_cons_of_mem _ he, hwrites⟩

/-- **`dev_sector` gives a sector that the plan writes to.** It may have read more extents. -/
theorem devSector_of_plan {s : ℕ} (h : planFrom size 0 ext = some plan)
    (more : List ListedExtent) (hsize : (s + 1) * SECTOR ≤ size) (htotal : size ≤ totalBytes ext) :
    ∃ x, devSector (ext ++ more) (s * SECTOR) = some x ∧ PlanWrites plan s x := by
  refine devSectorFrom_of_plan more hsize h (Int.dvd_zero _) (by omega) ?_
  rw [Nat.succ_mul, SECTOR] at hsize
  rw [SECTOR]
  omega

/-- Where no extent goes back, an entry takes nothing from before its place in the image. -/
theorem le_off_of_mem : ∀ {ext : List ListedExtent} {pos : ℤ} {plan : List PlanEntry},
    planFrom size pos ext = some plan → (∀ e ∈ ext, 0 ≤ e.2) → ∀ e ∈ plan, pos ≤ e.off
  | [], _, _, h, _, e, he => by
    obtain rfl := Option.some.inj h
    exact absurd he List.not_mem_nil
  | (phys, ln) :: ext, pos, plan, h, hlen, e, he => by
    obtain ⟨-, -, rest, hrest, rfl⟩ := planFrom_cons h
    obtain ⟨hln, hlen⟩ := List.forall_mem_cons.mp hlen
    dsimp only at hln
    rcases List.mem_cons.mp he with rfl | he
    · exact le_rfl
    · have := le_off_of_mem hrest hlen e he
      omega

/-- **It is the only one**, when no extent goes back. -/
theorem planWrites_unique {s x y : ℕ} : ∀ {ext : List ListedExtent} {pos : ℤ}
    {plan : List PlanEntry}, planFrom size pos ext = some plan → (∀ e ∈ ext, 0 ≤ e.2) →
      PlanWrites plan s x → PlanWrites plan s y → x = y
  | [], _, _, h, _, ⟨e, he, _⟩, _ => by
    obtain rfl := Option.some.inj h
    exact absurd he List.not_mem_nil
  | (phys, ln) :: ext, pos, plan, h, hlen, ⟨e, he, hlo, hhi, hx⟩, ⟨f, hf, hlo', hhi', hy⟩ => by
    obtain ⟨-, -, rest, hrest, rfl⟩ := planFrom_cons h
    obtain ⟨hln, hlen⟩ := List.forall_mem_cons.mp hlen
    have hrestoff := le_off_of_mem hrest hlen
    rw [SECTOR] at *
    rcases List.mem_cons.mp he with rfl | he <;> rcases List.mem_cons.mp hf with rfl | hf
    · omega
    · -- the sector would begin in the first extent and behind it
      have := hrestoff f hf
      dsimp only at hhi
      omega
    · have := hrestoff e he
      dsimp only at hhi'
      omega
    · exact planWrites_unique hrest hlen ⟨e, he, hlo, hhi, hx⟩ ⟨f, hf, hlo', hhi', hy⟩

theorem dvd_totalBytes : ∀ {ext : List ListedExtent} {pos : ℤ} {plan : List PlanEntry},
    planFrom size pos ext = some plan → (SECTOR : ℤ) ∣ totalBytes ext
  | [], _, _, _ => Int.dvd_zero _
  | (phys, ln) :: ext, _, _, h => by
    obtain ⟨-, hlen, rest, hrest, -⟩ := planFrom_cons h
    rw [totalBytes, List.map_cons, List.sum_cons, add_mul]
    exact Int.dvd_add hlen (dvd_totalBytes hrest)

end Plan

/-- What the full flash accepts it has a plan for. -/
theorem exists_plan {edl : Edl} {image : Bytes} {listing : List Text} {part : Text} {d : Device}
    (h : (FlashLogical.main edl image listing part false d).1 = 0) :
    ∃ plan, planFrom image.length 0 (FlashLogical.extentsFor listing part) = some plan := by
  cases hplan : planFrom image.length 0 (FlashLogical.extentsFor listing part) with
  | some plan => exact ⟨plan, rfl⟩
  | none =>
    rw [FlashLogical.main, hplan] at h
    split_ifs at h

/-- **The delta plan is exact, sector by sector**: the runs are the stretches of the changed
sectors, and where the delta flash reads the extents that the full flash reads, `dev_sector` and the
plan agree on each sector of an image that fills the partition. -/
theorem delta_plan_exact :
    (∀ cs : List ℕ, cs ≠ [] → cs.Pairwise (· < ·) →
      (∀ r ∈ coalesce cs, 1 ≤ r.2) ∧ (coalesce cs).Pairwise (fun r r' => r.1 + r.2 < r'.1) ∧
        ∀ c, c ∈ cs ↔ ∃ r ∈ coalesce cs, r.1 ≤ c ∧ c < r.1 + r.2) ∧
    ∀ (edl : Edl) (image : Bytes) (listing : List Text) (part : Text) (d : Device),
      (FlashLogical.main edl image listing part false d).1 = 0 →
      (image.length : ℤ) = totalBytes (FlashLogical.extentsFor listing part) →
      FlashLogical.extentsFor listing part <+: extentsFor listing part →
      ∃ plan, planFrom image.length 0 (FlashLogical.extentsFor listing part) = some plan ∧
        ∀ s, s * SECTOR < image.length → ∃ x,
          devSector (extentsFor listing part) (s * SECTOR) = some x ∧ PlanWrites plan s x ∧
            ((∀ e ∈ FlashLogical.extentsFor listing part, 0 ≤ e.2) →
              ∀ y, PlanWrites plan s y → y = x) := by
  refine ⟨fun cs _ hcs => ⟨fun r hr => pos_of_mem_coalesce hr, coalesce_separate hcs,
    fun c => mem_iff_exists_run⟩, ?_⟩
  rintro edl image listing part d haccept hfill ⟨more, hmore⟩
  obtain ⟨plan, hplan⟩ := exists_plan haccept
  refine ⟨plan, hplan, fun s hs => ?_⟩
  have hdvd : SECTOR ∣ image.length :=
    Int.natCast_dvd_natCast.mp (hfill ▸ dvd_totalBytes hplan)
  obtain ⟨x, hx, hwrites⟩ := devSector_of_plan hplan more (block_end_le hdvd hs) hfill.le
  exact ⟨x, hmore ▸ hx, hwrites, fun hlen y hy => planWrites_unique hplan hlen hy hwrites⟩

/-- The split partition again. -/
theorem delta_plan_exact_split : ∃ plan,
    planFrom (twoSectors 0 0).length 0 (FlashLogical.extentsFor splitListing splitPart) =
        some plan ∧
      ∀ s, s * SECTOR < (twoSectors 0 0).length → ∃ x,
        devSector (extentsFor splitListing splitPart) (s * SECTOR) = some x ∧
          PlanWrites plan s x ∧
            ((∀ e ∈ FlashLogical.extentsFor splitListing splitPart, 0 ≤ e.2) →
              ∀ y, PlanWrites plan s y → y = x) := by
  refine delta_plan_exact.2 overwritingEdl (twoSectors 0 0) splitListing splitPart (fun _ => 0)
    ?_ ?_ ?_
  · rw [FlashLogical.main, fullExtents_split, length_twoSectors]
    decide
  · rw [fullExtents_split, length_twoSectors]
    decide
  · exact ⟨[], by rw [List.append_nil, fullExtents_split, deltaExtents_split]⟩

/-- Two partitions with no line between their sections. -/
def joinedListing : List Text :=
  ["  Name: product_b", "    0 .. 7 linear super 8", "  Name: odm_b",
    "    0 .. 7 linear super 24"].map String.toList

/-- An extent that goes back by one device sector, between two that do not. -/
def backwardListing : List Text :=
  ["  Name: product_b", "    0 .. 15 linear super 8", "    15 .. 6 linear super 24",
    "    0 .. 7 linear super 40"].map String.toList

/-- The full flash accepts an image of two sectors for either listing. From the first the delta
flash reads no place for the second sector, and from the second the plan has two places for it. -/
theorem not_delta_plan_exact :
    ((FlashLogical.main overwritingEdl (twoSectors 0 0) joinedListing splitPart false
          (fun _ => 0)).1 = 0 ∧
      ((twoSectors 0 0).length : ℤ) =
        totalBytes (FlashLogical.extentsFor joinedListing splitPart) ∧
      (∃ plan, planFrom (twoSectors 0 0).length 0
          (FlashLogical.extentsFor joinedListing splitPart) = some plan ∧ PlanWrites plan 1 45579) ∧
      devSector (extentsFor joinedListing splitPart) (1 * SECTOR) = none) ∧
    (FlashLogical.main overwritingEdl (twoSectors 0 0) backwardListing splitPart false
          (fun _ => 0)).1 = 0 ∧
      ((twoSectors 0 0).length : ℤ) =
        totalBytes (FlashLogical.extentsFor backwardListing splitPart) ∧
      ∃ plan, planFrom (twoSectors 0 0).length 0
          (FlashLogical.extentsFor backwardListing splitPart) = some plan ∧
        PlanWrites plan 1 45578 ∧ PlanWrites plan 1 45581 := by
  have hjoined : FlashLogical.extentsFor joinedListing splitPart = [(8, 8), (24, 8)] := by decide
  have hdelta : extentsFor joinedListing splitPart = [(8, 8)] := by decide
  have hback : FlashLogical.extentsFor backwardListing splitPart =
      [(8, 16), (24, -8), (40, 8)] := by decide
  have hplan : planFrom (2 * SECTOR) 0 [(8, 8), (24, 8)] =
      some [⟨45577, 0, 4096⟩, ⟨45579, 4096, 4096⟩] := rfl
  have hplan' : planFrom (2 * SECTOR) 0 [(8, 16), (24, -8), (40, 8)] =
      some [⟨45577, 0, 8192⟩, ⟨45579, 8192, -4096⟩, ⟨45581, 4096, 4096⟩] := rfl
  rw [FlashLogical.main, FlashLogical.main, hjoined, hback, hdelta, length_twoSectors, hplan,
    hplan']
  refine ⟨⟨by decide, by decide, ⟨_, rfl, ?_⟩, by decide⟩, by decide, by decide, _, rfl, ?_, ?_⟩
  · exact ⟨⟨45579, 4096, 4096⟩, by simp, by decide⟩
  · exact ⟨⟨45577, 0, 8192⟩, by simp, by decide⟩
  · exact ⟨⟨45581, 4096, 4096⟩, by simp, by decide⟩

end DeltaFlash

end PalmaEos
