import PalmaEos.DeltaAgainstFull
import PalmaEos.FlashUnpack
import PalmaEos.Lib.RangeWrites
import PalmaEos.Lib.Runs

/-!
# Flashing with an `edl` that may fail

Both flashing scripts stop at the first `edl ws` that does not print `Wrote`, with exit code 1, and
leave a partition that is half written. The way out is to run the script again. Here `edl` may fail
at any write, and then leaves anything in the range it was to write.

Which ranges a script writes depends on its arguments only, so a run is a batch of range writes, and
an attempt that exits 0 leaves what a run without failures leaves. That is so as long as the same
script is run again: a full flash that has failed may have spoilt sectors that a delta flash takes
for unchanged. In a `Session` full flashes come after delta flashes, for every image anew.

## Main results

* `flash_retried`, `delta_retried` — either script, after attempts that failed
* `session_holds` — a whole session of flashes
-/

namespace PalmaEos

/-- `edl ws` says when it fails, and writes to its range only. -/
abbrev Edl.Honest (edl : Edl) : Prop := Writer.Honest SECTOR edl.ws

theorem overwritingEdl_honest : overwritingEdl.Honest where
  wrote _ := rfl
  frame h := overwrite_of_not_mem h

/-- A run of a script, given `edl` and the device: its exit code, and the device it leaves. -/
abbrev FlashRun := Edl → Device → ℕ × Device

/-- The device after attempts, whether they failed or not. -/
def tried (run : FlashRun) (attempts : List Edl) (d : Device) : Device :=
  attempts.foldl (fun d edl => (run edl d).2) d

/-- The script carries out the batch `W`, and exits 0 when it is done and `whole`. -/
def IsBatch (run : FlashRun) (W : List (ℕ × Bytes)) (whole : Bool) : Prop :=
  ∀ edl d, run edl d = (if (writeRanges edl.ws W d).2 && whole then 0 else 1,
    (writeRanges edl.ws W d).1)

section Batch

variable {run : FlashRun} {W : List (ℕ × Bytes)} {whole : Bool} {attempts : List Edl} {edl : Edl}
  {d : Device}

theorem IsBatch.tried_frame (h : IsBatch run W whole) (hattempts : ∀ e ∈ attempts, e.Honest)
    {i : ℕ} (hi : ¬ Touches SECTOR W i) : tried run attempts d i = d i := by
  induction attempts generalizing d with
  | nil => rfl
  | cons e attempts ih =>
    rw [tried, List.foldl_cons, ← tried, ih fun x hx => hattempts x (List.mem_cons_of_mem _ hx), h]
    exact writeRanges_frame (hattempts e List.mem_cons_self) hi

/-- **An attempt that exits 0** leaves what a run without failures leaves. -/
theorem IsBatch.retried (h : IsBatch run W whole) (hattempts : ∀ e ∈ attempts, e.Honest)
    (hedl : edl.Honest) (hdone : (run edl (tried run attempts d)).1 = 0) :
    run edl (tried run attempts d) = run overwritingEdl d := by
  have hsure : (writeRanges overwritingEdl.ws W d).2 = true := writeRanges_sure fun _ _ _ => rfl
  rw [h] at hdone ⊢
  dsimp only at hdone
  split_ifs at hdone with hok
  rw [Bool.and_eq_true] at hok
  rw [writeRanges_retried hedl (fun i hi => h.tried_frame hattempts hi) hok.1, h, hsure, hok.1,
    writeRanges_whole overwritingEdl_honest hsure]

end Batch

/-! ### The full flash -/

namespace FlashLogical

/-- The ranges that the writing loop writes; a seek to a negative offset ends it. -/
def planRanges (image : Bytes) : List PlanEntry → List (ℕ × Bytes)
  | [] => []
  | e :: plan =>
    if e.take ≤ 0 then planRanges image plan
    else if e.off < 0 then []
    else (e.sector, padSector (copyLoop (image.drop e.off.toNat) e.take.toNat)) ::
      planRanges image plan

/-- No offset of an entry that is written is negative. -/
def planWhole : List PlanEntry → Bool
  | [] => true
  | e :: plan => (e.take ≤ 0 || 0 ≤ e.off) && planWhole plan

/-- A run of the script with `--go`. -/
def run (image : Bytes) (listing : List Text) (part : Text) : FlashRun :=
  fun edl d => main edl image listing part true d

/-- The plan of `main`, unless it refuses. -/
def planned (image : Bytes) (listing : List Text) (part : Text) : Option (List PlanEntry) :=
  let ext := extentsFor listing part
  if ext = [] then none
  else if (image.length : ℤ) > totalBytes ext then none
  else planFrom image.length 0 ext

/-- The ranges of a whole run. -/
def ranges (image : Bytes) (listing : List Text) (part : Text) : List (ℕ × Bytes) :=
  (planned image listing part).elim [] (planRanges image)

theorem writePlan_eq (edl : Edl) (image : Bytes) (plan : List PlanEntry) (d : Device) :
    writePlan edl image plan d =
      (if (writeRanges edl.ws (planRanges image plan) d).2 && planWhole plan then 0 else 1,
        (writeRanges edl.ws (planRanges image plan) d).1) := by
  induction plan generalizing d with
  | nil => rfl
  | cons e plan ih =>
    rw [writePlan, planRanges, planWhole]
    by_cases htake : e.take ≤ 0
    · rw [if_pos htake, if_pos htake, ih, decide_eq_true htake, Bool.true_or, Bool.true_and]
    · rw [if_neg htake, if_neg htake, decide_eq_false htake, Bool.false_or]
      by_cases hoff : e.off < 0
      · rw [if_pos hoff, if_pos hoff, decide_eq_false (not_le.mpr hoff), Bool.false_and,
          Bool.and_false]
        rfl
      · rw [if_neg hoff, if_neg hoff, decide_eq_true (not_lt.mp hoff), Bool.true_and]
        dsimp only
        by_cases hdone : (edl.ws e.sector
            (padSector (copyLoop (image.drop e.off.toNat) e.take.toNat)) d).2 = true
        · rw [if_pos hdone, writeRanges_cons_of_done hdone, ih]
        · rw [if_neg hdone, writeRanges_cons_of_failed hdone, Bool.false_and]
          rfl

theorem main_eq_planned (edl : Edl) (image : Bytes) (listing : List Text) (part : Text)
    (d : Device) : main edl image listing part true d =
      match planned image listing part with
      | none => (1, d)
      | some plan => writePlan edl image plan d := by
  rw [main, planned]
  split_ifs with hnone hbig hgo
  · rfl
  · rfl
  · exact absurd hgo (by decide)
  · rfl

/-- A run of the script is a batch. -/
theorem isBatch_main (image : Bytes) (listing : List Text) (part : Text) :
    IsBatch (run image listing part) (ranges image listing part)
      ((planned image listing part).elim false planWhole) := by
  intro edl d
  rw [run, main_eq_planned, ranges]
  cases planned image listing part with
  | none => rfl
  | some plan => exact writePlan_eq edl image plan d

/-- What an entry of the plan takes from the extent that it is for. -/
theorem mem_planFrom {size : ℕ} {e : PlanEntry} : ∀ {ext : List ListedExtent} {imgOff : ℤ}
    {plan : List PlanEntry}, planFrom size imgOff ext = some plan → e ∈ plan →
      ∃ x ∈ ext, e.sector * SECTOR = SUPER_OFFSET + x.1 * 512 ∧ e.take ≤ x.2 * 512 ∧
        (SECTOR : ℤ) ∣ x.2 * 512
  | [], _, plan, hplan, he => by
    obtain rfl := Option.some.inj hplan
    exact absurd he List.not_mem_nil
  | (phys, len) :: ext, imgOff, plan, hplan, he => by
    rw [planFrom] at hplan
    split_ifs at hplan with hmis
    obtain ⟨rest, hrest, rfl⟩ := Option.map_eq_some_iff.mp hplan
    rw [not_or, not_not, not_not] at hmis
    rcases List.mem_cons.mp he with rfl | he
    · refine ⟨_, List.mem_cons_self, ?_, min_le_left _ _, Int.dvd_of_emod_eq_zero hmis.2⟩
      exact Nat.div_mul_cancel (Nat.dvd_of_mod_eq_zero hmis.1)
    · obtain ⟨x, hx, hfacts⟩ := mem_planFrom hrest he
      exact ⟨x, List.mem_cons_of_mem _ hx, hfacts⟩

theorem mem_planRanges {image : Bytes} {p : ℕ × Bytes} : ∀ {plan : List PlanEntry},
    p ∈ planRanges image plan → ∃ e ∈ plan, 0 < e.take ∧ p.1 = e.sector ∧
      p.2 = padSector ((image.drop e.off.toNat).take e.take.toNat)
  | e :: plan, hp => by
    rw [planRanges] at hp
    split_ifs at hp with htake hoff
    · obtain ⟨x, hx, hfacts⟩ := mem_planRanges hp
      exact ⟨x, List.mem_cons_of_mem _ hx, hfacts⟩
    · exact absurd hp List.not_mem_nil
    · rcases List.mem_cons.mp hp with rfl | hp
      · exact ⟨e, List.mem_cons_self, not_le.mp htake, rfl, by rw [copyLoop_eq]⟩
      · obtain ⟨x, hx, hfacts⟩ := mem_planRanges hp
        exact ⟨x, List.mem_cons_of_mem _ hx, hfacts⟩

/-- A padded piece of no more than whole sectors is no longer. -/
theorem length_padSector_le_of_dvd {bs : Bytes} {n : ℕ} (hn : SECTOR ∣ n) (hle : bs.length ≤ n) :
    (padSector bs).length ≤ n := by
  rw [padSector, List.length_append, List.length_replicate]
  rw [SECTOR] at *
  omega

/-- The script writes to the extents of its partition only. -/
theorem covers_of_touches {image : Bytes} {listing : List Text} {part : Text} {i : ℕ}
    (hi : Touches SECTOR (ranges image listing part) i) :
    ∃ s ∈ deviceLayout (extentsFor listing part), Layout.Covers s i := by
  obtain ⟨p, hp, hlo, hhi⟩ := hi
  rw [ranges, planned] at hp
  split_ifs at hp with hnone hbig
  · exact absurd hp List.not_mem_nil
  · exact absurd hp List.not_mem_nil
  · cases hplan : planFrom image.length 0 (extentsFor listing part) with
    | none =>
      rw [hplan] at hp
      exact absurd hp List.not_mem_nil
    | some plan =>
      rw [hplan] at hp
      obtain ⟨e, he, htake, hsector, hpiece⟩ := mem_planRanges hp
      obtain ⟨x, hx, hstart, hle, hdvd⟩ := mem_planFrom hplan he
      refine ⟨_, List.mem_map.mpr ⟨x, hx, rfl⟩, ?_⟩
      have hn : SECTOR ∣ (x.2 * 512).toNat := by
        rw [← Int.natCast_dvd_natCast, Int.toNat_of_nonneg (by omega)]
        exact hdvd
      have hlen : p.2.length ≤ (x.2 * 512).toNat := by
        rw [hpiece]
        refine length_padSector_le_of_dvd hn ?_
        rw [List.length_take]
        omega
      rw [hsector, hstart] at hlo hhi
      exact ⟨hlo, by dsimp only; omega⟩

end FlashLogical

/-- What a flash of an image makes of the device `d`: the extents hold the image, with zeros up to
the end of its last sector, and everything else is as it was. -/
structure Flashed (L : Layout) (image : Bytes) (d d' : Device) : Prop where
  fits : image.length ≤ L.size
  holds : ∀ {o a}, L.place o = some a → ∀ ho : o < image.length, d' a = image[o]
  zeros : ∀ {o a}, L.place o = some a → image.length ≤ o →
    o < (image.length + (SECTOR - 1)) / SECTOR * SECTOR → d' a = 0
  rest : ∀ {o a}, L.place o = some a → (image.length + (SECTOR - 1)) / SECTOR * SECTOR ≤ o →
    d' a = d a
  frame : ∀ {a}, (∀ s ∈ L, ¬ Layout.Covers s a) → d' a = d a

/-- The full flash reads a partition of separate, aligned extents out of the listing. -/
structure GoodListing (listing : List Text) (part : Text) : Prop where
  found : FlashLogical.extentsFor listing part ≠ []
  aligned : Aligned (FlashLogical.extentsFor listing part)
  separate : (deviceLayout (FlashLogical.extentsFor listing part)).Separate

section FullFlash

variable {image : Bytes} {listing : List Text} {part : Text} {attempts : List Edl} {edl : Edl}
  {d : Device}

/-- A full flash without failures. -/
theorem run_full (hgood : GoodListing listing part)
    (hfit : image.length ≤ (deviceLayout (FlashLogical.extentsFor listing part)).size)
    (d : Device) : FlashLogical.run image listing part overwritingEdl d
      = (0, scatter d (deviceLayout (FlashLogical.extentsFor listing part))
          (FlashLogical.padSector image)) := by
  refine FlashLogical.main_eq_scatter overwritingEdl_overwrites hgood.found hgood.aligned ?_ d
  have := size_deviceLayout hgood.aligned
  omega

/-- A full flash that exits 0 had room for its image. -/
theorem fits_of_done (hgood : GoodListing listing part)
    (hdone : (FlashLogical.run image listing part overwritingEdl d).1 = 0) :
    image.length ≤ (deviceLayout (FlashLogical.extentsFor listing part)).size := by
  by_contra hbig
  have hrefused : FlashLogical.Refused image listing part := by
    have := size_deviceLayout hgood.aligned
    exact Or.inr (Or.inl (by omega))
  rw [FlashLogical.run, FlashLogical.main_of_refused hrefused] at hdone
  exact absurd hdone one_ne_zero

theorem length_padSector (bs : Bytes) : (FlashLogical.padSector bs).length
    = (bs.length + (SECTOR - 1)) / SECTOR * SECTOR := by
  rw [FlashLogical.padSector, List.length_append, List.length_replicate, SECTOR]
  omega

/-- The padded image, written over the extents, is a flash of the image. -/
theorem flashed_scatter {L : Layout} (hL : L.Separate) (hfit : image.length ≤ L.size)
    (d : Device) : Flashed L image d (scatter d L (FlashLogical.padSector image)) where
  fits := hfit
  holds hplace ho := by
    rw [scatter_place hL hplace, FlashLogical.padSector, List.getElem?_append_left ho,
      List.getElem?_eq_getElem ho, Option.getD_some]
  zeros hplace hle hlt := by
    rw [← length_padSector, FlashLogical.padSector, List.length_append,
      List.length_replicate] at hlt
    rw [scatter_place hL hplace, FlashLogical.padSector, List.getElem?_append_right hle,
      List.getElem?_replicate_of_lt (by omega), Option.getD_some]
  rest hplace hle := by
    rw [← length_padSector] at hle
    rw [scatter_place hL hplace, List.getElem?_eq_none hle, Option.getD_none]
  frame := scatter_outside

/-- What a full flash without failures leaves. -/
theorem flashed_of_done (hgood : GoodListing listing part)
    (hdone : (FlashLogical.run image listing part overwritingEdl d).1 = 0) :
    Flashed (deviceLayout (FlashLogical.extentsFor listing part)) image d
      (FlashLogical.run image listing part overwritingEdl d).2 := by
  have hfit := fits_of_done hgood hdone
  rw [run_full hgood hfit]
  exact flashed_scatter hgood.separate hfit d

/-- An attempt at a full flash that exits 0 leaves what a flash without failures leaves. -/
theorem full_again (hattempts : ∀ e ∈ attempts, e.Honest) (hedl : edl.Honest)
    (hdone : (FlashLogical.run image listing part edl
      (tried (FlashLogical.run image listing part) attempts d)).1 = 0) :
    FlashLogical.run image listing part edl
        (tried (FlashLogical.run image listing part) attempts d)
      = FlashLogical.run image listing part overwritingEdl d :=
  (FlashLogical.isBatch_main image listing part).retried hattempts hedl hdone

/-- **A full flash that is tried again.** Whatever the attempts did, nothing outside the extents of
the partition has changed; and an attempt that exits 0 leaves the image on the extents of the
original device, and nothing of what the attempts left. -/
theorem flash_retried (hgood : GoodListing listing part) (hattempts : ∀ e ∈ attempts, e.Honest)
    (hedl : edl.Honest) :
    let d₁ := tried (FlashLogical.run image listing part) attempts d
    (∀ a, (∀ s ∈ deviceLayout (FlashLogical.extentsFor listing part), ¬ Layout.Covers s a) →
        d₁ a = d a) ∧
      ((FlashLogical.run image listing part edl d₁).1 = 0 →
        Flashed (deviceLayout (FlashLogical.extentsFor listing part)) image d
          (FlashLogical.run image listing part edl d₁).2) := by
  intro d₁
  constructor
  · intro a ha
    refine (FlashLogical.isBatch_main image listing part).tried_frame hattempts fun hi => ?_
    obtain ⟨s, hs, hcov⟩ := FlashLogical.covers_of_touches hi
    exact ha s hs hcov
  · intro hdone
    have hsame := full_again hattempts hedl hdone
    rw [hsame] at hdone ⊢
    exact flashed_of_done hgood hdone

end FullFlash

/-! ### The delta flash -/

namespace DeltaFlash

/-- The ranges that the writing loop writes; it ends where `dev_sector` has no answer. -/
def runRanges (new : Bytes) (ext : List ListedExtent) : List (ℕ × ℕ) → List (ℕ × Bytes)
  | [] => []
  | r :: runs =>
    match devSector ext (r.1 * SECTOR) with
    | none => []
    | some ds => (ds, window new (r.1 * SECTOR) (r.2 * SECTOR)) :: runRanges new ext runs

/-- `dev_sector` has an answer for every run. -/
def runsWhole (ext : List ListedExtent) (runs : List (ℕ × ℕ)) : Bool :=
  runs.all fun r => (devSector ext (r.1 * SECTOR)).isSome

/-- A run of the script with `--go`. -/
def run (old new : Bytes) (listing : List Text) (part : Text) (maxPct : ℤ) : FlashRun :=
  fun edl d => main edl old new listing part maxPct true d

/-- The runs that `main` writes, unless it refuses. -/
def planned (old new : Bytes) (listing : List Text) (part : Text) (maxPct : ℤ) :
    Option (List (ℕ × ℕ)) :=
  if old.length ≠ new.length then none
  else if extentsFor listing part = [] then none
  else if (new.length : ℤ) > totalBytes (extentsFor listing part) then none
  else if changedSectors old new = [] then some []
  else if exceeds maxPct (changedSectors old new).length new.length then none
  else some (coalesce (changedSectors old new))

/-- The ranges of a whole run. -/
def ranges (old new : Bytes) (listing : List Text) (part : Text) (maxPct : ℤ) :
    List (ℕ × Bytes) :=
  (planned old new listing part maxPct).elim [] (runRanges new (extentsFor listing part))

theorem writeRuns_eq (edl : Edl) (new : Bytes) (ext : List ListedExtent) (runs : List (ℕ × ℕ))
    (d : Device) : writeRuns edl new ext runs d =
      (if (writeRanges edl.ws (runRanges new ext runs) d).2 && runsWhole ext runs then 0 else 1,
        (writeRanges edl.ws (runRanges new ext runs) d).1) := by
  induction runs generalizing d with
  | nil => rfl
  | cons r runs ih =>
    rw [writeRuns, runRanges, runsWhole, List.all_cons, ← runsWhole]
    cases hds : devSector ext (r.1 * SECTOR) with
    | none => rfl
    | some ds =>
      dsimp only
      by_cases hdone : (edl.ws ds (window new (r.1 * SECTOR) (r.2 * SECTOR)) d).2 = true
      · rw [if_pos hdone, writeRanges_cons_of_done hdone, ih]
        rfl
      · rw [if_neg hdone, writeRanges_cons_of_failed hdone, Bool.false_and]
        rfl

theorem main_eq_planned (edl : Edl) (old new : Bytes) (listing : List Text) (part : Text)
    (maxPct : ℤ) (d : Device) : main edl old new listing part maxPct true d =
      match planned old new listing part maxPct with
      | none => (1, d)
      | some runs => writeRuns edl new (extentsFor listing part) runs d := by
  rw [main, planned]
  dsimp only
  split_ifs with hsize hnone hbig hsame hpct hgo
  · rfl
  · rfl
  · rfl
  · rfl
  · rfl
  · exact absurd hgo (by decide)
  · rfl

/-- A run of the script is a batch. -/
theorem isBatch_main (old new : Bytes) (listing : List Text) (part : Text) (maxPct : ℤ) :
    IsBatch (run old new listing part maxPct) (ranges old new listing part maxPct)
      ((planned old new listing part maxPct).elim false
        (runsWhole (extentsFor listing part))) := by
  intro edl d
  rw [run, main_eq_planned, ranges]
  cases planned old new listing part maxPct with
  | none => rfl
  | some runs => exact writeRuns_eq edl new _ runs d

theorem mem_runRanges {new : Bytes} {ext : List ListedExtent} {p : ℕ × Bytes} :
    ∀ {runs : List (ℕ × ℕ)}, p ∈ runRanges new ext runs → ∃ r ∈ runs,
      devSector ext (r.1 * SECTOR) = some p.1 ∧ p.2 = window new (r.1 * SECTOR) (r.2 * SECTOR)
  | r :: runs, hp => by
    rw [runRanges] at hp
    cases hds : devSector ext (r.1 * SECTOR) with
    | none =>
      rw [hds] at hp
      exact absurd hp List.not_mem_nil
    | some ds =>
      rw [hds] at hp
      rcases List.mem_cons.mp hp with rfl | hp
      · exact ⟨r, List.mem_cons_self, hds, rfl⟩
      · obtain ⟨x, hx, hfacts⟩ := mem_runRanges hp
        exact ⟨x, List.mem_cons_of_mem _ hx, hfacts⟩

/-- Where the runs follow the extents, the sectors they write are those of the changed sectors. -/
theorem runWrites_perm {fullExt deltaExt : List ListedExtent} (hal : Aligned fullExt)
    (hsep : (deviceLayout fullExt).Separate) {old new : Bytes}
    (hfit : new.length ≤ (deviceLayout fullExt).size)
    (hfollow : RunsFollowExtents fullExt deltaExt old new) :
    (fullWrites new fullExt (changedSectors old new)).Perm
      (runWrites new deltaExt (coalesce (changedSectors old new))) := by
  have hnodup : (fullWrites new fullExt (changedSectors old new)).Nodup :=
    List.Nodup.of_map _ (nodup_fullWrites hal hsep hfit)
  have hlen : (runWrites new deltaExt (coalesce (changedSectors old new))).length
      ≤ (fullWrites new fullExt (changedSectors old new)).length := by
    rw [fullWrites, List.length_map]
    exact length_runWrites_le new _ _
  refine (List.subperm_of_subset hnodup ?_).perm_of_length_le hlen
  rcases (runsFollowExtents_iff hfit).mp hfollow with hnil | ⟨-, hall⟩
  · rw [hnil, fullWrites, List.map_nil]
    exact List.nil_subset _
  · exact fullWrites_subset_iff.mpr hall

/-- Where the runs follow the extents, the script writes to the places of the image only. -/
theorem place_of_touches {old new : Bytes} {listing : List Text} {part : Text} {maxPct : ℤ}
    (hal : Aligned (FlashLogical.extentsFor listing part))
    (hsep : (deviceLayout (FlashLogical.extentsFor listing part)).Separate)
    (hmul : SECTOR ∣ new.length)
    (hfit : new.length ≤ (deviceLayout (FlashLogical.extentsFor listing part)).size)
    (hfollow : RunsFollowExtents (FlashLogical.extentsFor listing part) (extentsFor listing part)
      old new) {i : ℕ} (hi : Touches SECTOR (ranges old new listing part maxPct) i) :
    ∃ o < new.length, (deviceLayout (FlashLogical.extentsFor listing part)).place o = some i := by
  obtain ⟨p, hp, hlo, hhi⟩ := hi
  have hp : p ∈ runRanges new (extentsFor listing part) (coalesce (changedSectors old new)) := by
    rw [ranges, planned] at hp
    split_ifs at hp
    all_goals first | exact hp | exact absurd hp List.not_mem_nil
  obtain ⟨r, hr, hds, hpiece⟩ := mem_runRanges hp
  obtain ⟨k, rfl⟩ := Nat.exists_eq_add_of_le hlo
  have hk : k < r.2 * SECTOR := by
    rw [hpiece, length_window] at hhi
    omega
  have hrow : k / SECTOR < r.2 := Nat.div_lt_of_lt_mul (by rwa [Nat.mul_comm] at hk)
  have hmem : (p.1 + k / SECTOR, blockOf SECTOR new (r.1 + k / SECTOR)) ∈
      runWrites new (extentsFor listing part) (coalesce (changedSectors old new)) :=
    List.mem_flatMap.mpr ⟨r, hr, mem_writesOfRun.mpr ⟨p.1, hds, _, hrow, rfl⟩⟩
  obtain ⟨s, hs, heq⟩ := List.mem_map.mp ((runWrites_perm hal hsep hfit hfollow).mem_iff.mpr hmem)
  obtain ⟨hsector, -⟩ := Prod.mk.injEq .. ▸ heq
  have hlt := (mem_changedSectors.mp hs).1
  have hend := block_end_le hmul hlt
  have hmod := Nat.mod_lt k SECTOR_pos
  rw [Nat.succ_mul] at hend
  refine ⟨s * SECTOR + k % SECTOR, by omega, ?_⟩
  rw [place_fullSector hal (by omega) hmod, hsector, Nat.add_mul, Nat.add_assoc, Nat.div_add_mod']

end DeltaFlash

/-! ### A delta flash that is tried again -/

section DeltaAgain

open DeltaFlash (RunsFollowExtents)

variable {old new : Bytes} {listing : List Text} {part : Text} {maxPct : ℤ}
  {attempts fulls : List Edl} {edl : Edl} {d : Device}

/-- The device holds an image in a partition. -/
def Holds (listing : List Text) (part : Text) (d : Device) (image : Bytes) : Prop :=
  (gather d (deviceLayout (FlashLogical.extentsFor listing part))).take image.length = image

/-- An image that a partition holds fits. -/
theorem Holds.fits (h : Holds listing part d old) :
    old.length ≤ (deviceLayout (FlashLogical.extentsFor listing part)).size := by
  have := congrArg List.length h
  rw [List.length_take, length_gather] at this
  omega

/-- A delta flash without failures that exits 0 is a full flash. -/
theorem run_delta_eq_full (hgood : GoodListing listing part) (hmul : SECTOR ∣ new.length)
    (hold : Holds listing part d old)
    (hfollow : RunsFollowExtents (FlashLogical.extentsFor listing part)
      (DeltaFlash.extentsFor listing part) old new)
    (hdone : (DeltaFlash.run old new listing part maxPct overwritingEdl d).1 = 0) :
    DeltaFlash.run old new listing part maxPct overwritingEdl d
      = FlashLogical.run new listing part overwritingEdl d := by
  have hsize : old.length = new.length := by
    by_contra hne
    rw [DeltaFlash.run, DeltaFlash.main, if_pos hne] at hdone
    exact absurd hdone one_ne_zero
  have hfit := hold.fits
  rw [hsize] at hfit
  have hfit' : (new.length : ℤ) ≤ totalBytes (FlashLogical.extentsFor listing part) := by
    have := size_deviceLayout hgood.aligned
    omega
  refine Prod.ext (hdone.trans (by rw [run_full hgood hfit])) ?_
  by_cases hsame : DeltaFlash.changedSectors old new = []
  · -- nothing to do: the device holds the new image already
    have hsector := DeltaFlash.blocks_scatter hgood.aligned hgood.separate hsize hmul hfit hold
    rw [hsame, DeltaFlash.fullWrites, List.map_nil, writeAll_nil] at hsector
    rw [run_full hgood hfit, FlashLogical.padSector_of_dvd hmul,
      blocks_injective DeltaFlash.SECTOR_pos hsector, DeltaFlash.run, DeltaFlash.main_eq_planned,
      DeltaFlash.planned]
    split_ifs
    all_goals rfl
  · have hpct : ¬ DeltaFlash.exceeds maxPct (DeltaFlash.changedSectors old new).length
        new.length := by
      intro hmany
      rw [DeltaFlash.run, DeltaFlash.main_eq_planned, DeltaFlash.planned,
        if_neg (not_not.mpr hsize), if_neg hsame, if_pos hmany] at hdone
      split_ifs at hdone
    exact (DeltaFlash.main_device_eq_iff overwritingEdl_overwrites hgood.found hgood.aligned
      hgood.separate hsize hmul hfit' hold hpct).mpr hfollow

/-- What the attempts of a delta flash leave alone. -/
theorem tried_delta_frame (hgood : GoodListing listing part) (hmul : SECTOR ∣ new.length)
    (hold : Holds listing part d old)
    (hfollow : RunsFollowExtents (FlashLogical.extentsFor listing part)
      (DeltaFlash.extentsFor listing part) old new) (hattempts : ∀ e ∈ attempts, e.Honest) {a : ℕ}
    (ha : ∀ o < new.length,
      (deviceLayout (FlashLogical.extentsFor listing part)).place o ≠ some a) :
    tried (DeltaFlash.run old new listing part maxPct) attempts d a = d a := by
  by_cases hsize : old.length = new.length
  · refine (DeltaFlash.isBatch_main old new listing part maxPct).tried_frame hattempts fun hi => ?_
    obtain ⟨o, ho, hplace⟩ := DeltaFlash.place_of_touches hgood.aligned hgood.separate hmul
      (hsize ▸ hold.fits) hfollow hi
    exact ha o ho hplace
  · refine (DeltaFlash.isBatch_main old new listing part maxPct).tried_frame hattempts fun hi => ?_
    obtain ⟨p, hp, -⟩ := hi
    rw [DeltaFlash.ranges, DeltaFlash.planned, if_pos hsize] at hp
    exact absurd hp List.not_mem_nil

/-- Full flashes of two devices that agree where no byte of the image goes. -/
theorem scatter_congr_image {L : Layout} (hL : L.Separate) {bs : Bytes} {d e : Device}
    (hsame : ∀ a, (∀ o < bs.length, L.place o ≠ some a) → d a = e a) :
    scatter d L bs = scatter e L bs := by
  funext a
  by_cases hplace : ∃ o, L.place o = some a
  · obtain ⟨o, ho⟩ := hplace
    rw [scatter_place hL ho, scatter_place hL ho]
    rcases Nat.lt_or_ge o bs.length with hlt | hge
    · rw [List.getElem?_eq_getElem hlt, Option.getD_some, Option.getD_some]
    · rw [List.getElem?_eq_none hge, Option.getD_none, Option.getD_none]
      refine hsame a fun o' ho' hplace' => ?_
      have := hL.place_inj ho hplace'
      omega
  · have hout : ∀ s ∈ L, ¬ Layout.Covers s a := fun s hs hcov =>
      hplace (Layout.exists_place_of_covers hs hcov)
    rw [scatter_outside hout, scatter_outside hout]
    exact hsame a fun o _ ho => hplace ⟨o, ho⟩

/-- An attempt at a delta flash that exits 0 leaves what a full flash without failures leaves. -/
theorem delta_again (hgood : GoodListing listing part) (hmul : SECTOR ∣ new.length)
    (hold : Holds listing part d old)
    (hfollow : RunsFollowExtents (FlashLogical.extentsFor listing part)
      (DeltaFlash.extentsFor listing part) old new)
    (hattempts : ∀ e ∈ attempts, e.Honest) (hedl : edl.Honest)
    (hdone : (DeltaFlash.run old new listing part maxPct edl
      (tried (DeltaFlash.run old new listing part maxPct) attempts d)).1 = 0) :
    DeltaFlash.run old new listing part maxPct edl
        (tried (DeltaFlash.run old new listing part maxPct) attempts d)
      = FlashLogical.run new listing part overwritingEdl d := by
  have hsame :=
    (DeltaFlash.isBatch_main old new listing part maxPct).retried hattempts hedl hdone
  rw [hsame] at hdone ⊢
  exact run_delta_eq_full hgood hmul hold hfollow hdone

/-- So does a full flash that exits 0 after attempts at both. -/
theorem full_after_delta (hgood : GoodListing listing part) (hmul : SECTOR ∣ new.length)
    (hold : Holds listing part d old)
    (hfollow : RunsFollowExtents (FlashLogical.extentsFor listing part)
      (DeltaFlash.extentsFor listing part) old new)
    (hattempts : ∀ e ∈ attempts, e.Honest) (hfulls : ∀ e ∈ fulls, e.Honest) (hedl : edl.Honest)
    (hdone : (FlashLogical.run new listing part edl (tried (FlashLogical.run new listing part)
      fulls (tried (DeltaFlash.run old new listing part maxPct) attempts d))).1 = 0) :
    FlashLogical.run new listing part edl (tried (FlashLogical.run new listing part) fulls
        (tried (DeltaFlash.run old new listing part maxPct) attempts d))
      = FlashLogical.run new listing part overwritingEdl d := by
  have hsame := full_again hfulls hedl hdone
  rw [hsame] at hdone ⊢
  have hfit := fits_of_done hgood hdone
  rw [run_full hgood hfit, run_full hgood hfit, FlashLogical.padSector_of_dvd hmul,
    scatter_congr_image hgood.separate fun a =>
      tried_delta_frame hgood hmul hold hfollow hattempts]

/-- **A delta flash that is tried again.** Where the runs follow the extents and the device held the
old image, the attempts change nothing but the bytes of the image. An attempt that exits 0 leaves
the device of a full flash without failures, with the new image on the extents, and so does a full
flash in its place, also one that is tried again. -/
theorem delta_retried (hgood : GoodListing listing part) (hmul : SECTOR ∣ new.length)
    (hold : Holds listing part d old)
    (hfollow : RunsFollowExtents (FlashLogical.extentsFor listing part)
      (DeltaFlash.extentsFor listing part) old new)
    (hattempts : ∀ e ∈ attempts, e.Honest) (hfulls : ∀ e ∈ fulls, e.Honest) (hedl : edl.Honest) :
    let d₁ := tried (DeltaFlash.run old new listing part maxPct) attempts d
    let d₂ := tried (FlashLogical.run new listing part) fulls d₁
    let L := deviceLayout (FlashLogical.extentsFor listing part)
    (∀ a, (∀ o < new.length, L.place o ≠ some a) → d₁ a = d a) ∧
      ((DeltaFlash.run old new listing part maxPct edl d₁).1 = 0 →
        DeltaFlash.run old new listing part maxPct edl d₁
            = FlashLogical.run new listing part overwritingEdl d ∧
          Flashed L new d (DeltaFlash.run old new listing part maxPct edl d₁).2) ∧
      ((FlashLogical.run new listing part edl d₂).1 = 0 →
        FlashLogical.run new listing part edl d₂
            = FlashLogical.run new listing part overwritingEdl d ∧
          Flashed L new d (FlashLogical.run new listing part edl d₂).2) := by
  intro d₁ d₂ L
  refine ⟨fun a => tried_delta_frame hgood hmul hold hfollow hattempts, fun hdone => ?_,
    fun hdone => ?_⟩
  · have hfull := delta_again hgood hmul hold hfollow hattempts hedl hdone
    rw [hfull] at hdone ⊢
    exact ⟨rfl, flashed_of_done hgood hdone⟩
  · have hfull := full_after_delta hgood hmul hold hfollow hattempts hfulls hedl hdone
    rw [hfull] at hdone ⊢
    exact ⟨rfl, flashed_of_done hgood hdone⟩

end DeltaAgain

/-! ### Sessions -/

/-- How a partition is brought from one image to the next. -/
inductive Flashing
  /-- By the delta flash. -/
  | delta (maxPct : ℤ) (attempts : List Edl) (edl : Edl)
  /-- By the full flash, after attempts of the delta flash. -/
  | full (maxPct : ℤ) (deltas attempts : List Edl) (edl : Edl)

/-- One round of work on a partition: the new image, and how it gets there. -/
structure Iteration where
  new : Bytes
  flashing : Flashing

namespace Iteration

variable (listing : List Text) (part : Text)

/-- The device before the last attempt. -/
def before (it : Iteration) (old : Bytes) (d : Device) : Device :=
  match it.flashing with
  | .delta maxPct attempts _ => tried (DeltaFlash.run old it.new listing part maxPct) attempts d
  | .full maxPct deltas attempts _ => tried (FlashLogical.run it.new listing part) attempts
      (tried (DeltaFlash.run old it.new listing part maxPct) deltas d)

/-- The last attempt: its exit code, and the device it leaves. -/
def last (it : Iteration) (old : Bytes) (d : Device) : ℕ × Device :=
  match it.flashing with
  | .delta maxPct _ edl =>
    DeltaFlash.run old it.new listing part maxPct edl (it.before listing part old d)
  | .full _ _ _ edl => FlashLogical.run it.new listing part edl (it.before listing part old d)

/-- Delta flashes were attempted. -/
def UsesDelta (it : Iteration) : Prop :=
  match it.flashing with
  | .delta _ _ _ => True
  | .full _ deltas _ _ => deltas ≠ []

/-- Every `edl` of the iteration is honest. -/
def Honest (it : Iteration) : Prop :=
  match it.flashing with
  | .delta _ attempts edl => (∀ e ∈ attempts, e.Honest) ∧ edl.Honest
  | .full _ deltas attempts edl =>
    (∀ e ∈ deltas, e.Honest) ∧ (∀ e ∈ attempts, e.Honest) ∧ edl.Honest

/-- The last attempt exits 0, and where delta flashes were attempted, their runs follow the extents.
What is worked on is an image and the device that holds it. -/
structure Succeeds (it : Iteration) (s : Bytes × Device) : Prop where
  honest : it.Honest
  done : (it.last listing part s.1 s.2).1 = 0
  follows : it.UsesDelta → SECTOR ∣ it.new.length ∧
    DeltaFlash.RunsFollowExtents (FlashLogical.extentsFor listing part)
      (DeltaFlash.extentsFor listing part) s.1 it.new

/-- One iteration: its image is the next baseline. -/
def step (s : Bytes × Device) (it : Iteration) : (Bytes × Device) × Option Empty :=
  ((it.new, (it.last listing part s.1 s.2).2), none)

end Iteration

section Session

variable {listing : List Text} {part : Text} {new old : Bytes} {d : Device} {it : Iteration}

/-- However an iteration gets there, it leaves what a full flash without failures leaves. -/
theorem Iteration.last_eq_full (hgood : GoodListing listing part) (hold : Holds listing part d old)
    (hit : it.Succeeds listing part (old, d)) : it.last listing part old d
      = FlashLogical.run it.new listing part overwritingEdl d := by
  obtain ⟨hhonest, hdone, hfollows⟩ := hit
  obtain ⟨new, flashing⟩ := it
  cases flashing with
  | delta maxPct attempts edl =>
    obtain ⟨hmul, hfollow⟩ := hfollows trivial
    exact delta_again hgood hmul hold hfollow hhonest.1 hhonest.2 hdone
  | full maxPct deltas attempts edl =>
    obtain ⟨hdeltas, hattempts, hedl⟩ := hhonest
    by_cases hnone : deltas = []
    · subst hnone
      exact full_again hattempts hedl hdone
    · obtain ⟨hmul, hfollow⟩ := hfollows hnone
      exact full_after_delta hgood hmul hold hfollow hdeltas hattempts hedl hdone

/-- After a full flash without failures the partition holds the image. -/
theorem holds_run_full (hgood : GoodListing listing part)
    (hfit : new.length ≤ (deviceLayout (FlashLogical.extentsFor listing part)).size) :
    Holds listing part (FlashLogical.run new listing part overwritingEdl d).2 new := by
  have hfit' : (new.length : ℤ) ≤ totalBytes (FlashLogical.extentsFor listing part) := by
    have := size_deviceLayout hgood.aligned
    omega
  rw [run_full hgood hfit, Holds, gather_scatter hgood.separate
    (length_padSector_le hgood.aligned hfit'), FlashLogical.padSector, List.append_assoc,
    List.take_left]

/-- **A session.** A partition that holds an image is brought to other images, one after the other,
each by a flash that exits 0, delta or full, after any attempts that may have failed. Then it holds
the last of them, and nothing outside its extents has changed. -/
theorem session_holds (hgood : GoodListing listing part) (hold : Holds listing part d old)
    {its : List Iteration} (hits : Along (Iteration.step listing part)
      (fun _ s it => it.Succeeds listing part s) [] (old, d) its) :
    let s := after (Iteration.step listing part) (old, d) its
    s.1 = ((its.map Iteration.new).getLast?).getD old ∧ Holds listing part s.2 s.1 ∧
      ∀ a, (∀ x ∈ deviceLayout (FlashLogical.extentsFor listing part), ¬ Layout.Covers x a) →
        s.2 a = d a := by
  intro s
  refine ⟨?_, ?_⟩
  · rcases its.eq_nil_or_concat with rfl | ⟨its, it, rfl⟩
    · rfl
    · rw [List.concat_eq_append, List.map_append, List.map_singleton, List.getLast?_concat,
        Option.getD_some]
      simp only [s, List.concat_eq_append, after_append]
      rfl
  · refine @run_inv _ _ _ _ _ (fun _ s => Holds listing part s.2 s.1 ∧ ∀ a,
      (∀ x ∈ deviceLayout (FlashLogical.extentsFor listing part), ¬ Layout.Covers x a) →
        s.2 a = d a) ?_ _ _ _ ⟨hold, fun _ _ => rfl⟩ hits
    rintro - ⟨old', d'⟩ it ⟨hold', hframe⟩ hit
    have hlast := Iteration.last_eq_full hgood hold' hit
    have hdone := hit.done
    rw [hlast] at hdone
    have hfit := fits_of_done hgood hdone
    refine ⟨?_, fun a ha => ?_⟩
    · rw [Iteration.step, hlast]
      exact holds_run_full hgood hfit
    · rw [Iteration.step, hlast, run_full hgood hfit]
      exact (scatter_outside ha).trans (hframe a ha)

end Session

/-! ### A write that fails once -/

open DeltaFlash (splitListing splitPart splitExtents twoSectors)

/-- An `edl` that spoils the range it was to write, and says that it failed. -/
def spoilingEdl : Edl :=
  ⟨fun x bs d => (overwrite d (x * SECTOR) (List.replicate bs.length 0xEE), false)⟩

theorem spoilingEdl_honest : spoilingEdl.Honest where
  wrote h := absurd h Bool.false_ne_true
  frame h := overwrite_of_not_mem (by rwa [List.length_replicate])

theorem goodListing_split : GoodListing splitListing splitPart where
  found := by
    rw [DeltaFlash.fullExtents_split]
    exact List.cons_ne_nil _ _
  aligned := by
    rw [DeltaFlash.fullExtents_split]
    exact DeltaFlash.aligned_split
  separate := by
    rw [DeltaFlash.fullExtents_split]
    exact DeltaFlash.separate_split

theorem fits_split (x y : UInt8) : (twoSectors x y).length
    ≤ (deviceLayout (FlashLogical.extentsFor splitListing splitPart)).size := by
  rw [DeltaFlash.fullExtents_split, DeltaFlash.length_twoSectors]
  decide

theorem holds_zeros : Holds splitListing splitPart (fun _ => 0) (twoSectors 0 0) := by
  rw [Holds, DeltaFlash.fullExtents_split]
  exact DeltaFlash.holds_split

theorem honest_spoiling : ∀ e ∈ [spoilingEdl], e.Honest := by
  intro e he
  rw [List.mem_singleton.mp he]
  exact spoilingEdl_honest

theorem flash_retried_split : Flashed
    (deviceLayout (FlashLogical.extentsFor splitListing splitPart)) (twoSectors 1 2) (fun _ => 0)
    (FlashLogical.run (twoSectors 1 2) splitListing splitPart overwritingEdl
      (tried (FlashLogical.run (twoSectors 1 2) splitListing splitPart) [spoilingEdl]
        fun _ => 0)).2 := by
  refine (flash_retried goodListing_split honest_spoiling overwritingEdl_honest).2 ?_
  rw [run_full goodListing_split (fits_split 1 2)]

/-- One changed sector is laid where it belongs. -/
theorem follows_split : DeltaFlash.RunsFollowExtents
    (FlashLogical.extentsFor splitListing splitPart)
    (DeltaFlash.extentsFor splitListing splitPart) (twoSectors 0 0) (twoSectors 0 1) := by
  rw [DeltaFlash.fullExtents_split, DeltaFlash.deltaExtents_split]
  refine DeltaFlash.runsFollowExtents_of_contiguous DeltaFlash.aligned_split
    (by simp [totalBytes, splitExtents, SECTOR]) fun s hs hs' => ?_
  have hlast := DeltaFlash.mem_changedSectors.mpr hs
  have hnext := DeltaFlash.mem_changedSectors.mpr hs'
  simp [DeltaFlash.changedSectors_twoSectors] at hlast hnext
  omega

theorem dvd_split (x y : UInt8) : SECTOR ∣ (twoSectors x y).length := by
  rw [DeltaFlash.length_twoSectors]
  exact Dvd.intro_left 2 rfl

/-- After a delta flash that failed, a full flash that failed and one that goes through. -/
theorem delta_retried_split :
    let d₁ := tried (DeltaFlash.run (twoSectors 0 0) (twoSectors 0 1) splitListing splitPart 100)
      [spoilingEdl] fun _ => 0
    let d₂ := tried (FlashLogical.run (twoSectors 0 1) splitListing splitPart) [spoilingEdl] d₁
    FlashLogical.run (twoSectors 0 1) splitListing splitPart overwritingEdl d₂
        = FlashLogical.run (twoSectors 0 1) splitListing splitPart overwritingEdl (fun _ => 0) ∧
      Flashed (deviceLayout (FlashLogical.extentsFor splitListing splitPart)) (twoSectors 0 1)
        (fun _ => 0)
        (FlashLogical.run (twoSectors 0 1) splitListing splitPart overwritingEdl d₂).2 := by
  refine (delta_retried goodListing_split (dvd_split 0 1) holds_zeros follows_split
    honest_spoiling honest_spoiling overwritingEdl_honest).2.2 ?_
  rw [run_full goodListing_split (fits_split 0 1)]

/-- The second sector is changed by the full flash when a delta flash has failed; then both sectors
are, at the second attempt. -/
def splitSession : List Iteration :=
  [⟨twoSectors 0 1, .full 100 [spoilingEdl] [] overwritingEdl⟩,
    ⟨twoSectors 1 1, .full 100 [] [spoilingEdl] overwritingEdl⟩]

theorem succeeds_split : Along (Iteration.step splitListing splitPart)
    (fun _ s it => it.Succeeds splitListing splitPart s) [] (twoSectors 0 0, fun _ => 0)
    splitSession := by
  have hdone : ∀ x y d, (FlashLogical.run (twoSectors x y) splitListing splitPart overwritingEdl
      d).1 = 0 := by
    intro x y d
    rw [run_full goodListing_split (fits_split x y)]
  refine ⟨⟨⟨honest_spoiling, by simp, overwritingEdl_honest⟩, hdone 0 1 _, fun _ => ?_⟩,
    ⟨⟨by simp, honest_spoiling, overwritingEdl_honest⟩, hdone 1 1 _, fun huses => ?_⟩, trivial⟩
  · exact ⟨dvd_split 0 1, follows_split⟩
  · exact absurd rfl huses

theorem session_holds_split : Holds splitListing splitPart
    (after (Iteration.step splitListing splitPart) (twoSectors 0 0, fun _ => 0) splitSession).2
    (after (Iteration.step splitListing splitPart) (twoSectors 0 0, fun _ => 0) splitSession).1 :=
  (session_holds goodListing_split holds_zeros succeeds_split).2.1

end PalmaEos
