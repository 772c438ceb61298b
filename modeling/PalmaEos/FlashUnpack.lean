import Mathlib.Algebra.BigOperators.Ring.List
import PalmaEos.FlashLogical
import PalmaEos.LpUnpack

/-!
# Flashing and unpacking

`flash-logical-via-edl.py` writes an image into a logical partition and `lpunpack.py` reads a
logical partition out of a `super` image. On a partition of LINEAR extents the second undoes the
first: the extraction yields the image, zeros up to a whole number of sectors, and then what the
partition held before.

What the flash knows of the partition is a listing. `Lists` says that a listing is one of these
extents: it shows them in order, except that extents of no sectors may be left out or may be
shown; they make no difference.

## Main results

* `gather_listed` — the listed device ranges hold the extracted bytes
* `unpack_flash` — the round trip, with its frame
-/

namespace PalmaEos

open LpUnpack (Extent Partition Reader linearRanges TARGET_TYPE_LINEAR SECTOR_SIZE)

/-- The `(phys_sector_512, len_512)` pair of a LINEAR extent. -/
def listedExtent (e : Extent) : ListedExtent := (e.targetData, e.numSectors)

/-- `ext` lists the extents `es`. -/
def Lists (ext : List ListedExtent) (es : List Extent) : Prop :=
  ext.filter (fun e => e.2 ≠ 0) = (es.map listedExtent).filter fun e => e.2 ≠ 0

instance (ext : List ListedExtent) (es : List Extent) : Decidable (Lists ext es) :=
  inferInstanceAs (Decidable (_ = _))

/-- The bytes of a `super` of length `n` on the device. -/
def superAt (d : Device) (n : ℕ) : Bytes := readAt d SUPER_OFFSET n

/-- A range of `super`, on the device. -/
def onDevice (s : ℕ × ℕ) : ℕ × ℕ := (SUPER_OFFSET + s.1, s.2)

/-- Device address `a` lies in one of the extents. -/
def InExtents (es : List Extent) (a : ℕ) : Prop :=
  ∃ s ∈ linearRanges es, Layout.Covers (onDevice s) a

theorem covers_onDevice {s : ℕ × ℕ} {a : ℕ} :
    Layout.Covers (onDevice s) a ↔ SUPER_OFFSET ≤ a ∧ Layout.Covers s (a - SUPER_OFFSET) := by
  simp only [Layout.Covers, onDevice]
  omega

/-! ### Segments of no elements -/

section Empty

variable {d : Device} {ext : List ListedExtent}

/-- Extents of no sectors hold nothing. -/
theorem gather_filter (d : Device) (ext : List ListedExtent) :
    gather d (deviceLayout (ext.filter fun e => e.2 ≠ 0)) = gather d (deviceLayout ext) := by
  induction ext with
  | nil => rfl
  | cons e ext ih =>
    by_cases he : e.2 = 0
    · rw [List.filter_cons_of_neg (by simp [he]), ih, deviceLayout_cons, gather_cons, he]
      rfl
    · rw [List.filter_cons_of_pos (by simp [he]), deviceLayout_cons, deviceLayout_cons,
        gather_cons, gather_cons, ih]

theorem size_filter (ext : List ListedExtent) :
    (deviceLayout (ext.filter fun e => e.2 ≠ 0)).size = (deviceLayout ext).size := by
  rw [← length_gather (fun _ => (0 : UInt8)), ← length_gather (fun _ => (0 : UInt8)), gather_filter]

/-- Extents of no sectors cover nothing. -/
theorem covers_filter {a : ℕ} : (∃ s ∈ deviceLayout ext, Layout.Covers s a) ↔
    ∃ s ∈ deviceLayout (ext.filter fun e => e.2 ≠ 0), Layout.Covers s a := by
  simp only [deviceLayout, List.mem_map, List.mem_filter]
  constructor
  · rintro ⟨_, ⟨e, he, rfl⟩, hcov⟩
    refine ⟨_, ⟨e, ⟨he, ?_⟩, rfl⟩, hcov⟩
    rw [decide_eq_true_iff]
    rintro hzero
    rw [Layout.Covers, hzero] at hcov
    exact absurd hcov.1 (by simpa using hcov.2)
  · rintro ⟨_, ⟨e, ⟨he, -⟩, rfl⟩, hcov⟩
    exact ⟨_, ⟨e, he, rfl⟩, hcov⟩

theorem separate_filter (h : (deviceLayout (ext.filter fun e => e.2 ≠ 0)).Separate) :
    (deviceLayout ext).Separate := by
  induction ext with
  | nil => exact List.Pairwise.nil
  | cons e ext ih =>
    by_cases he : e.2 = 0
    · rw [List.filter_cons_of_neg (by simp [he])] at h
      refine List.pairwise_cons.mpr ⟨fun s _ a ha => ?_, ih h⟩
      simp only [Layout.Covers, he] at ha
      omega
    · rw [List.filter_cons_of_pos (by simp [he])] at h
      obtain ⟨hfirst, hrest⟩ := List.pairwise_cons.mp h
      refine List.pairwise_cons.mpr ⟨fun s hs a ha hcov => ?_, ih hrest⟩
      obtain ⟨t, ht, htcov⟩ := covers_filter.mp ⟨s, hs, hcov⟩
      exact hfirst t ht a ha htcov

end Empty

/-! ### The listed ranges -/

theorem deviceLayout_map_listedExtent (es : List Extent) :
    deviceLayout (es.map listedExtent) = (linearRanges es).map onDevice := by
  rw [deviceLayout, linearRanges, List.map_map, List.map_map]
  refine List.map_congr_left ?_
  intro e _
  simp only [Function.comp_apply, onDevice, listedExtent, SECTOR_SIZE, Prod.mk.injEq, true_and]
  omega

section Listed

variable {ext : List ListedExtent} {es : List Extent}

/-- The listed ranges of a partition hold what an extraction reads. -/
theorem gather_listed (d : Device) (h : Lists ext es) :
    gather d (deviceLayout ext)
      = (linearRanges es).flatMap fun s => readAt d (SUPER_OFFSET + s.1) s.2 := by
  rw [← gather_filter, show ext.filter _ = _ from h, gather_filter, deviceLayout_map_listedExtent,
    gather, List.flatMap_map]
  rfl

theorem size_listed (h : Lists ext es) : (deviceLayout ext).size = (linearRanges es).size := by
  rw [← size_filter, show ext.filter _ = _ from h, size_filter, deviceLayout_map_listedExtent,
    Layout.size, List.map_map]
  rfl

theorem covers_listed (h : Lists ext es) {a : ℕ} :
    (∃ s ∈ deviceLayout ext, Layout.Covers s a) ↔ InExtents es a := by
  rw [covers_filter, show ext.filter _ = _ from h, ← covers_filter, deviceLayout_map_listedExtent]
  simp only [InExtents, List.mem_map, exists_exists_and_eq_and]

theorem separate_listed (h : Lists ext es) (hsep : (linearRanges es).Separate) :
    (deviceLayout ext).Separate := by
  refine separate_filter ?_
  rw [show ext.filter _ = _ from h, deviceLayout]
  have hall : (deviceLayout (es.map listedExtent)).Separate := by
    rw [deviceLayout_map_listedExtent, Layout.Separate, List.pairwise_map]
    refine List.Pairwise.imp (fun {s t} hst a ha hb => ?_) hsep
    rw [covers_onDevice] at ha hb
    exact hst _ ha.2 hb.2
  exact List.Pairwise.sublist (List.filter_sublist.map _) hall

/-- An accepted listing has no lengths below zero, as its extents have none. -/
theorem aligned_of_not_refused {image : Bytes} {listing : List Text} {part : Text}
    (h : Lists (FlashLogical.extentsFor listing part) es)
    (hgood : ¬ FlashLogical.Refused image listing part) :
    Aligned (FlashLogical.extentsFor listing part) := by
  intro e he
  have hnneg : 0 ≤ e.2 := by
    by_cases hzero : e.2 = 0
    · exact hzero.ge
    · have hmem : e ∈ (FlashLogical.extentsFor listing part).filter fun e => e.2 ≠ 0 :=
        List.mem_filter.mpr ⟨he, decide_eq_true hzero⟩
      rw [show List.filter _ _ = _ from h] at hmem
      obtain ⟨x, -, rfl⟩ := List.mem_map.mp (List.mem_filter.mp hmem).1
      exact Int.natCast_nonneg _
  exact ⟨hnneg, not_not.mp fun hmis => hgood (Or.inr (Or.inr ⟨e, he, hmis⟩))⟩

end Listed

/-! ### The round trip -/

section RoundTrip

variable {image : Bytes} {part : Partition} {extents es : List Extent} {d : Device}

/-- The padded image fits where the image does. -/
theorem length_padSector_le {ext : List ListedExtent} (hal : Aligned ext)
    (hfit : (image.length : ℤ) ≤ totalBytes ext) :
    (FlashLogical.padSector image).length ≤ (deviceLayout ext).size := by
  have hsize := size_deviceLayout hal
  have hdvd : SECTOR ∣ (deviceLayout ext).size := by
    refine List.dvd_sum ?_
    intro n hn
    obtain ⟨s, hs, rfl⟩ := List.mem_map.mp hn
    exact (aligned_deviceLayout hal s hs).2
  rw [FlashLogical.padSector, List.length_append, List.length_replicate]
  rw [SECTOR] at *
  omega

/-- What an extraction from the `super` on a device reads. -/
theorem extract_superAt {n : ℕ} {f : Reader} (hf : f.bytes = superAt d n) (chunk : ℕ+)
    {ext : List ListedExtent} (hlists : Lists ext es)
    (hidx : part.firstExtentIndex + part.numExtents ≤ extents.length)
    (hes : es = window extents part.firstExtentIndex part.numExtents)
    (hlin : ∀ e ∈ es, e.targetType = TARGET_TYPE_LINEAR)
    (hin : ∀ s ∈ linearRanges es, s.1 + s.2 ≤ n) :
    LpUnpack.extract f part extents chunk
      = (gather d (deviceLayout ext), .ok (linearRanges es).size) := by
  subst hes
  have hlen : f.bytes.length = n := by rw [hf, superAt, length_readAt]
  rw [LpUnpack.extract_linear f chunk hidx hlin (by rwa [hlen]), gather_listed d hlists]
  refine Prod.ext ?_ rfl
  refine List.flatMap_congr ?_
  intro s hs
  rw [hf, superAt, window_readAt (hin s hs)]

/-- **Unpacking what was flashed.** Let a `super` of `n` bytes on the device give `part` the LINEAR
extents `es`, separate and inside it, and let the listing list them. A refusal, for whatever
partition, writes nothing. An accepted image is what an extraction from the resulting `super`
begins with; zeros up to a whole number of sectors follow, and then what the same extraction gave
before. Nothing outside the extents changes, so that the metadata still read the same where they
are outside the extents themselves. -/
theorem unpack_flash {edl : Edl} (hedl : edl.Overwrites) {n : ℕ} {slot : ℤ}
    {parts : List Partition} {listing : List Text}
    (htables : LpUnpack.readTables (superAt d n) slot = .ok (parts, extents))
    (hidx : part.firstExtentIndex + part.numExtents ≤ extents.length)
    (hes : es = window extents part.firstExtentIndex part.numExtents)
    (hlin : ∀ e ∈ es, e.targetType = TARGET_TYPE_LINEAR) (hsep : (linearRanges es).Separate)
    (hin : ∀ s ∈ linearRanges es, s.1 + s.2 ≤ n)
    (hlists : Lists (FlashLogical.extentsFor listing part.name) es) (image : Bytes) :
    (∀ name, FlashLogical.Refused image listing name →
      FlashLogical.main edl image listing name true d = (1, d)) ∧
    (¬ FlashLogical.Refused image listing part.name →
      ∃ d' zeros old, FlashLogical.main edl image listing part.name true d = (0, d') ∧
        zeros < 4096 ∧ 4096 ∣ image.length + zeros ∧
        LpUnpack.partitionSize part extents = .ok old.length ∧
        (∀ f : Reader, f.bytes = superAt d n → ∀ chunk,
          LpUnpack.extract f part extents chunk = (old, .ok old.length)) ∧
        (∀ f : Reader, f.bytes = superAt d' n → ∀ chunk,
          LpUnpack.extract f part extents chunk
            = (image ++ List.replicate zeros 0 ++ old.drop (image.length + zeros),
              .ok old.length)) ∧
        (∀ a, ¬ InExtents es a → d' a = d a) ∧
        ((∀ a < LpUnpack.GEOMETRY_SIZE,
            ¬ InExtents es (SUPER_OFFSET + (LpUnpack.PARTITION_RESERVED_BYTES + a))) →
          (∀ g, LpUnpack.readGeometry (superAt d n) = .ok g →
            ∀ a < g.metadataMaxSize,
              ¬ InExtents es (SUPER_OFFSET + ((LpUnpack.slotOffset g slot).toNat + a))) →
          LpUnpack.readTables (superAt d' n) slot = .ok (parts, extents))) := by
  refine ⟨fun name hname => FlashLogical.main_of_refused hname edl true d, ?_⟩
  intro hgood
  have hal := aligned_of_not_refused hlists hgood
  obtain ⟨hne, hrest⟩ := not_or.mp hgood
  have hfit : (image.length : ℤ) ≤ totalBytes (FlashLogical.extentsFor listing part.name) :=
    not_lt.mp (not_or.mp hrest).1
  have hlayout := separate_listed hlists hsep
  have hsize : (gather d (deviceLayout (FlashLogical.extentsFor listing part.name))).length
      = (linearRanges es).size := by
    rw [length_gather, size_listed hlists]
  have hframe : ∀ a, ¬ InExtents es a →
      scatter d (deviceLayout (FlashLogical.extentsFor listing part.name))
        (FlashLogical.padSector image) a = d a := by
    refine fun a ha => scatter_outside fun s hs hcov => ha ?_
    exact (covers_listed hlists).mp ⟨s, hs, hcov⟩
  refine ⟨_, (SECTOR - image.length % SECTOR) % SECTOR,
    gather d (deviceLayout (FlashLogical.extentsFor listing part.name)),
    FlashLogical.main_eq_scatter hedl hne hal hfit d, Nat.mod_lt _ (by decide), ?_, ?_, ?_, ?_,
    hframe, ?_⟩
  · rw [SECTOR]
    omega
  · rw [hsize, LpUnpack.partitionSize_eq hidx, hes]
  · intro f hf chunk
    rw [hsize, extract_superAt hf chunk hlists hidx hes hlin hin]
  · intro f hf chunk
    rw [hsize, extract_superAt hf chunk hlists hidx hes hlin hin,
      gather_scatter hlayout (length_padSector_le hal hfit), FlashLogical.padSector,
      List.length_append, List.length_replicate]
  · intro hgeo hslot
    rw [← htables]
    refine LpUnpack.readTables_congr (window_readAt_congr fun i hlo hi => hframe _ ?_)
      fun g hg => window_readAt_congr fun i hlo hi => hframe _ ?_
    all_goals obtain ⟨j, rfl⟩ := Nat.exists_eq_add_of_le hlo
    · exact hgeo j (by omega)
    · exact hslot g hg j (by omega)

end RoundTrip

/-- A device whose `super` of 28672 bytes has one partition `p`, of eight sectors at byte 24576 and
eight at byte 16384. -/
def smallDevice : Device :=
  let geometry := toLE 4 LpUnpack.GEOMETRY_MAGIC ++ toLE 4 52 ++ toLE 32 0 ++ toLE 4 512 ++ toLE 4 1
  let header := toLE 4 LpUnpack.HEADER_MAGIC ++ toLE 2 10 ++ toLE 2 2 ++ toLE 4 128 ++ toLE 68 0 ++
    toLE 12 (52 * 2 ^ 64 + 1 * 2 ^ 32) ++ toLE 12 (24 * 2 ^ 64 + 2 * 2 ^ 32 + 52)
  let tables := toLE 36 112 ++ toLE 16 (2 * 2 ^ 64) ++ toLE 8 8 ++ toLE 4 0 ++ toLE 8 48 ++
    toLE 4 0 ++ toLE 8 8 ++ toLE 4 0 ++ toLE 8 32
  overwrite (overwrite (overwrite (fun _ => 0) (SUPER_OFFSET + 4096) geometry)
    (SUPER_OFFSET + 12288) header) (SUPER_OFFSET + 12288 + 128) tables

/-- The listing of `smallDevice`. -/
def smallListing : List Text :=
  ["Name: p\n".toList, "0 .. 7 linear super 48\n".toList, "8 .. 15 linear super 32\n".toList,
    "----\n".toList]

def smallPartition : Partition := ⟨['p'], 0, 0, 2, 0⟩

def smallExtents : List Extent := [⟨8, 0, 48, 0⟩, ⟨8, 0, 32, 0⟩]

/-- An image of 5000 bytes reaches into the second extent. -/
def smallImage : Bytes := List.replicate 5000 7

theorem unpack_flash_small : ∃ (d' : Device) (old : Bytes),
    FlashLogical.main overwritingEdl smallImage smallListing ['p'] true smallDevice = (0, d') ∧
      LpUnpack.partitionSize smallPartition smallExtents = .ok old.length ∧
      (∀ f : Reader, f.bytes = superAt d' 28672 → ∀ chunk,
        LpUnpack.extract f smallPartition smallExtents chunk
          = (smallImage ++ List.replicate 3192 0 ++ old.drop 8192, .ok old.length)) ∧
      ∀ a, ¬ InExtents smallExtents a → d' a = smallDevice a := by
  have htables : LpUnpack.readTables (superAt smallDevice 28672) 0
      = .ok ([smallPartition], smallExtents) := by decide +kernel
  have hext : FlashLogical.extentsFor smallListing ['p'] = [(48, 8), (32, 8)] := by decide +kernel
  have hlength : smallImage.length = 5000 := List.length_replicate
  have hgood : ¬ FlashLogical.Refused smallImage smallListing ['p'] := by
    rw [FlashLogical.Refused, hext, hlength]
    decide
  have hidx :
      smallPartition.firstExtentIndex + smallPartition.numExtents ≤ smallExtents.length := by
    decide
  have hlists : Lists (FlashLogical.extentsFor smallListing ['p']) smallExtents := by
    rw [hext]
    decide
  have hsep : (linearRanges smallExtents).Separate := by
    refine List.pairwise_pair.mpr fun a ha hb => ?_
    simp only [Layout.Covers, SECTOR_SIZE] at ha hb
    omega
  obtain ⟨d', zeros, old, hmain, hlt, hdvd, hsize, -, hnew, hframe, -⟩ :=
    (unpack_flash overwritingEdl_overwrites htables hidx rfl (by decide) hsep (by decide) hlists
      smallImage).2 hgood
  rw [hlength] at hdvd hnew
  obtain rfl : zeros = 3192 := by omega
  exact ⟨d', old, hmain, hsize, hnew, hframe⟩

end PalmaEos
