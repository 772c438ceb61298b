import PalmaEos.Lib.Runs
import PalmaEos.LpReaders
import PalmaEos.LpResizeFrame

/-!
# Resizing over and over

One run of `lp-resize-partition.py` adds an extent behind everything that is in use. Here the runs
follow one another: each takes what the one before left, and one that refuses leaves it.

`Sound` is what metadata must be for the partitions not to spoil each other: LINEAR extents on one
block device that do not meet, on device 0 between its first logical sector and its end, and groups
within their limits. A run may add a `Fresh` extent and nothing else. So any run of requests, for
whatever slots, keeps every copy of every slot sound, and no partition loses or moves a sector.

## Main results

* `Sound.add` — a fresh extent keeps the layout sound
* `patchSlot_fresh` — what `patch_slot` adds is fresh
* `resizes_sound` — whole runs of requests
-/

namespace PalmaEos

namespace LpResize

open LpUnpack (Extent)

/-! ### Partitions on block devices -/

/-- The sector ranges of the LINEAR extents on block device `source`. -/
def rangesOn (source : ℕ) (ps : List LogicalPartition) : Layout :=
  ((ps.flatMap LogicalPartition.extents).filter fun e =>
    e.targetType = 0 ∧ e.targetSource = source).map fun e => (e.targetData, e.numSectors)

/-- The layout is sound, given the raw entries of the groups and block devices tables. -/
structure Sound (ps : List LogicalPartition) (groups devices : List Bytes) : Prop where
  separate : ∀ source, (rangesOn source ps).Separate
  inside : ∀ dev, devices[0]? = some dev → ∀ s ∈ rangesOn 0 ps,
    leAt 8 dev 0 ≤ s.1 ∧ (s.1 + s.2) * 512 ≤ leAt 8 dev 16
  limits : ∀ i group, groups[i]? = some group → leAt 8 group 40 ≠ 0 →
    groupSectors ps i * 512 ≤ leAt 8 group 40

/-- What every added extent is: LINEAR on block device 0, of whole sectors of 4096 bytes. -/
structure Added (e : Extent) : Prop where
  linear : e.targetType = 0
  source : e.targetSource = 0
  start : 8 ∣ e.targetData
  length : 8 ∣ e.numSectors

/-- The extent `e` may be added to a partition `p`. -/
structure Fresh (ps : List LogicalPartition) (groups devices : List Bytes) (p : LogicalPartition)
    (e : Extent) : Prop extends Added e where
  free : ∀ s ∈ rangesOn 0 ps, ∀ a, Layout.Covers s a →
    ¬ Layout.Covers (e.targetData, e.numSectors) a
  inside : ∀ dev, devices[0]? = some dev →
    leAt 8 dev 0 ≤ e.targetData ∧ (e.targetData + e.numSectors) * 512 ≤ leAt 8 dev 16
  limit : ∀ group, groups[p.group]? = some group → leAt 8 group 40 ≠ 0 →
    (groupSectors ps p.group + e.numSectors) * 512 ≤ leAt 8 group 40

/-- A partition with one extent more. -/
def LogicalPartition.add (p : LogicalPartition) (e : Extent) : LogicalPartition :=
  { p with extents := p.extents ++ [e] }

/-- `p'` is `p`, perhaps with more extents behind. -/
structure Extends (p p' : LogicalPartition) : Prop where
  name : p'.name = p.name
  attributes : p'.attributes = p.attributes
  group : p'.group = p.group
  extents : ∃ es, p'.extents = p.extents ++ es ∧ ∀ e ∈ es, Added e

section Layouts

variable {ps : List LogicalPartition} {groups devices : List Bytes} {p : LogicalPartition}
  {e : Extent} {t source : ℕ}

theorem Extends.refl (p : LogicalPartition) : Extends p p :=
  ⟨rfl, rfl, rfl, [], (List.append_nil _).symm, fun _ he => absurd he List.not_mem_nil⟩

theorem Extends.trans {p q r : LogicalPartition} (h : Extends p q) (h' : Extends q r) :
    Extends p r := by
  obtain ⟨es, hes, hadded⟩ := h.extents
  obtain ⟨es', hes', hadded'⟩ := h'.extents
  refine ⟨h'.name.trans h.name, h'.attributes.trans h.attributes, h'.group.trans h.group, es ++ es',
    by rw [hes', hes, List.append_assoc], fun e he => ?_⟩
  exact (List.mem_append.mp he).elim (hadded e) (hadded' e)

theorem Extends.add (p : LogicalPartition) (he : Added e) : Extends p (p.add e) :=
  ⟨rfl, rfl, rfl, [e], rfl, List.forall_mem_singleton.mpr he⟩

theorem Extends.sectors_le {p q : LogicalPartition} (h : Extends p q) :
    p.sectors ≤ q.sectors := by
  obtain ⟨es, hes, -⟩ := h.extents
  rw [LogicalPartition.sectors, LogicalPartition.sectors, hes, List.map_append, List.sum_append]
  exact Nat.le_add_right _ _

theorem extends_refl (ps : List LogicalPartition) : List.Forall₂ Extends ps ps :=
  List.forall₂_same.mpr fun p _ => Extends.refl p

theorem extends_trans : ∀ {ps qs rs : List LogicalPartition}, List.Forall₂ Extends ps qs →
    List.Forall₂ Extends qs rs → List.Forall₂ Extends ps rs
  | _, _, _, .nil, .nil => .nil
  | _, _, _, .cons h hs, .cons h' hs' => .cons (h.trans h') (extends_trans hs hs')

theorem names_of_extends {ps ps' : List LogicalPartition} (h : List.Forall₂ Extends ps ps') :
    ps'.map LogicalPartition.name = ps.map LogicalPartition.name := by
  induction h with
  | nil => rfl
  | cons hq _ ih => rw [List.map_cons, List.map_cons, hq.name, ih]

theorem extends_set (hp : ps[t]? = some p) (he : Added e) :
    List.Forall₂ Extends ps (ps.set t (p.add e)) := by
  induction ps generalizing t with
  | nil => exact .nil
  | cons q ps ih =>
    cases t with
    | zero =>
      obtain rfl := Option.some.inj hp
      exact .cons (Extends.add _ he) (extends_refl ps)
    | succ t => exact .cons (Extends.refl q) (ih hp)

/-- The extents of all partitions, and the new one. -/
theorem flatMap_set_perm (hp : ps[t]? = some p) :
    ((ps.set t (p.add e)).flatMap LogicalPartition.extents).Perm
      (e :: ps.flatMap LogicalPartition.extents) := by
  induction ps generalizing t with
  | nil => exact (nomatch hp)
  | cons q ps ih =>
    cases t with
    | zero =>
      obtain rfl := Option.some.inj hp
      rw [List.set_cons_zero, List.flatMap_cons, List.flatMap_cons, LogicalPartition.add,
        List.append_assoc]
      exact List.perm_middle
    | succ t =>
      rw [List.set_cons_succ, List.flatMap_cons, List.flatMap_cons]
      exact ((ih hp).append_left _).trans List.perm_middle

theorem rangesOn_set_perm (hp : ps[t]? = some p) (hlinear : e.targetType = 0) :
    (rangesOn source (ps.set t (p.add e))).Perm
      (if e.targetSource = source then (e.targetData, e.numSectors) :: rangesOn source ps
        else rangesOn source ps) := by
  refine (((flatMap_set_perm hp).filter _).map _).trans ?_
  by_cases hsource : e.targetSource = source
  · rw [List.filter_cons_of_pos (by simp [hlinear, hsource]), if_pos hsource]
    exact List.Perm.refl _
  · rw [List.filter_cons_of_neg (by simp [hsource]), if_neg hsource]
    exact List.Perm.refl _

theorem separate_perm {L L' : Layout} (h : L.Perm L') : L.Separate ↔ L'.Separate :=
  h.pairwise_iff fun hst a ha hb => hst a hb ha

/-- The other groups are as they were. -/
theorem groupSectors_set_other {i : ℕ} (hp : ps[t]? = some p) (hi : p.group ≠ i) :
    groupSectors (ps.set t (p.add e)) i = groupSectors ps i := by
  induction ps generalizing t with
  | nil => exact (nomatch hp)
  | cons q ps ih =>
    cases t with
    | zero =>
      obtain rfl := Option.some.inj hp
      have hq : ¬ decide (q.group = i) = true := by rwa [decide_eq_true_iff]
      rw [List.set_cons_zero, groupSectors, groupSectors, List.filter_cons, List.filter_cons,
        if_neg hq, if_neg (show ¬ decide ((q.add e).group = i) = true from hq)]
    | succ t =>
      have ih := ih (t := t) hp
      rw [groupSectors, groupSectors] at ih
      rw [List.set_cons_succ, groupSectors, groupSectors, List.filter_cons, List.filter_cons]
      split_ifs
      · rw [List.map_cons, List.map_cons, List.sum_cons, List.sum_cons, ih]
      · exact ih

/-- **A fresh extent** keeps the layout sound. -/
theorem Sound.add (h : Sound ps groups devices) (hp : ps[t]? = some p)
    (he : Fresh ps groups devices p e) : Sound (ps.set t (p.add e)) groups devices where
  separate source := by
    rw [separate_perm (rangesOn_set_perm hp he.linear)]
    split_ifs with hsource
    · obtain rfl : 0 = source := he.source.symm.trans hsource
      exact List.pairwise_cons.mpr ⟨fun s hs a ha hb => he.free s hs a hb ha, h.separate 0⟩
    · exact h.separate source
  inside dev hdev s hs := by
    rw [(rangesOn_set_perm hp he.linear).mem_iff, if_pos he.source] at hs
    rcases List.mem_cons.mp hs with rfl | hs
    · exact he.inside dev hdev
    · exact h.inside dev hdev s hs
  limits i group hgroup hmax := by
    by_cases hi : p.group = i
    · subst hi
      rw [LogicalPartition.add, groupSectors_set hp]
      exact he.limit group hgroup hmax
    · rw [groupSectors_set_other hp hi]
      exact h.limits i group hgroup hmax

end Layouts

/-! ### One copy -/

/-- The copy at `base`, of `maxSize` bytes, holds well-formed metadata that say this. -/
def CopySays (d : Bytes) (base maxSize : ℕ) (ps : List LogicalPartition)
    (groups devices : List Bytes) : Prop :=
  ∃ m, Slot d base maxSize m ∧ logicalPartitions d m = ps ∧ entries d m m.groups = groups ∧
    entries d m m.devices = devices

/-- The copy at `base` is sound, or there is no header. -/
def CopySound (d : Bytes) (base maxSize : ℕ) : Prop :=
  parseMetadata d base = .ok none ∨
    ∃ ps groups devices, CopySays d base maxSize ps groups devices ∧ Sound ps groups devices

/-- What becomes of the copy at `base`: the groups and block devices stay, and each partition keeps
its extents where they are. -/
structure CopyKept (d out : Bytes) (base maxSize : ℕ) : Prop where
  none : parseMetadata d base = .ok none → parseMetadata out base = .ok none
  kept : ∀ ps groups devices, CopySays d base maxSize ps groups devices →
    ∃ ps', CopySays out base maxSize ps' groups devices ∧ List.Forall₂ Extends ps ps'

/-- The last partition called `target` is as large as was asked for. -/
def LargeEnough (ps : List LogicalPartition) (target : Text) (newSize : ℤ) : Prop :=
  ∃ t p, lastIndex target (ps.map LogicalPartition.name) = some t ∧ ps[t]? = some p ∧
    ceilSectors newSize ≤ p.sectors

/-- The copy at `base` gives the target the size that was asked for. -/
def CopyGrants (d : Bytes) (base maxSize : ℕ) (target : Text) (newSize : ℤ) : Prop :=
  ∀ ps groups devices, CopySays d base maxSize ps groups devices → LargeEnough ps target newSize

section Copies

variable {sha : Sha256} {d out blob : Bytes} {base maxSize slotSize : ℕ} {m : Metadata}
  {target : Text} {newSize : ℤ} {ps ps' : List LogicalPartition} {groups devices : List Bytes}
  {r : Option Bytes}

theorem Slot.hdr_le (h : Slot d base slotSize m) : 128 ≤ slotSize := by
  have := h.hdrSize
  have := h.tables_inside m.partitions (by simp)
  omega

/-- Well-formed metadata leave room for more. -/
theorem Slot.mono (h : Slot d base slotSize m) (hle : slotSize ≤ maxSize)
    (hin : base + maxSize ≤ d.length) : Slot d base maxSize m :=
  { h with
    slot_inside := hin
    tables_inside := fun t ht => (h.tables_inside t ht).trans hle }

theorem Slot.names_eq : (logicalPartitions d m).map LogicalPartition.name
    = (entries d m m.partitions).map partName := by
  rw [logicalPartitions, List.map_map]
  rfl

/-- What a copy says is determined by its bytes. -/
theorem CopySays.unique {gs ds : List Bytes} (h : CopySays d base maxSize ps groups devices)
    (h' : CopySays d base maxSize ps' gs ds) : ps = ps' ∧ groups = gs ∧ devices = ds := by
  obtain ⟨m, hslot, rfl, rfl, rfl⟩ := h
  obtain ⟨m', hslot', rfl, rfl, rfl⟩ := h'
  obtain rfl := Option.some.inj (Except.ok.inj (hslot.parsed.symm.trans hslot'.parsed))
  exact ⟨rfl, rfl, rfl⟩

theorem CopySays.not_none (h : CopySays d base maxSize ps groups devices) :
    parseMetadata d base ≠ .ok none := by
  obtain ⟨m, hslot, -⟩ := h
  rw [hslot.parsed]
  exact fun heq => Option.some_ne_none m (Except.ok.inj heq)

/-- Well-formed metadata are read from the bytes of their slot. -/
theorem Slot.reread (h : Slot d base slotSize m) (hin : base + slotSize ≤ out.length)
    (hwindow : window out base slotSize = window d base slotSize) :
    Slot out base slotSize m ∧ ∀ t ∈ [m.partitions, m.extents, m.groups, m.devices],
      entries out m t = entries d m t := by
  have h128 := h.hdr_le
  have hentries : ∀ t ∈ [m.partitions, m.extents, m.groups, m.devices],
      entries out m t = entries d m t := by
    intro t ht
    have hin := h.tables_inside t ht
    rw [entries_eq_records h.base_eq, entries_eq_records h.base_eq, Nat.add_assoc,
      ← records_window hin, ← records_window hin, hwindow]
  have hread : ∀ w a, a + w ≤ 128 → leAt w out (base + a) = leAt w d (base + a) := by
    intro w a ha
    rw [← leAt_window (n := slotSize) (by omega), hwindow, leAt_window (by omega)]
  have hdesc : ∀ a, a + 12 ≤ 128 → descAt out (base + a) = descAt d (base + a) := by
    intro a ha
    rw [descAt, descAt, hread 4 a (by omega), Nat.add_assoc, hread 4 (a + 4) (by omega),
      Nat.add_assoc, hread 4 (a + 8) (by omega)]
  obtain ⟨hmagic, hm⟩ := h.eq_parsed
  have hmagic' : leAt 4 out base = HEADER_MAGIC := (hread 4 0 (by omega)).trans hmagic
  refine ⟨{ h with parsed := ?_, slot_inside := hin, ranges_inside := ?_ }, hentries⟩
  · rw [parseMetadata_natCast (by omega), if_neg (not_not.mpr hmagic'), hread 2 4 (by omega),
      hread 2 6 (by omega), hread 4 8 (by omega), hread 4 H_TABLES_SIZE (by decide),
      hdesc H_PARTITIONS (by decide), hdesc H_EXTENTS (by decide), hdesc H_GROUPS (by decide),
      hdesc H_DEVICES (by decide), ← hm]
  · rw [hentries m.partitions (by simp)]
    exact h.ranges_inside

/-- A copy is read from its own bytes. -/
theorem CopySays.congr (h : CopySays d base maxSize ps groups devices)
    (hin : base + maxSize ≤ out.length)
    (hwindow : window out base maxSize = window d base maxSize) :
    CopySays out base maxSize ps groups devices := by
  obtain ⟨m, hslot, rfl, rfl, rfl⟩ := h
  obtain ⟨hslot', hentries⟩ := hslot.reread hin hwindow
  refine ⟨m, hslot', ?_, hentries m.groups (by simp), hentries m.devices (by simp)⟩
  rw [logicalPartitions, logicalPartitions, hentries m.partitions (by simp),
    hentries m.extents (by simp)]

theorem LargeEnough.extends (h : LargeEnough ps target newSize)
    (hext : List.Forall₂ Extends ps ps') : LargeEnough ps' target newSize := by
  obtain ⟨t, p, ht, hp, hlarge⟩ := h
  obtain ⟨hlt, rfl⟩ := List.getElem?_eq_some_iff.mp hp
  have hlt' : t < ps'.length := hext.length_eq ▸ hlt
  have hq := hext.get hlt hlt'
  refine ⟨t, ps'[t], by rw [names_of_extends hext, ht], List.getElem?_eq_getElem hlt', ?_⟩
  exact hlarge.trans (Int.ofNat_le.mpr hq.sectors_le)

/-- **What `patch_slot` adds is fresh.** -/
theorem patchSlot_fresh (h : Slot d base slotSize m)
    (hb : patchSlot sha d base target newSize = .ok (some blob)) :
    ∃ m' t p e, Slot blob 0 blob.length m' ∧
      entries blob m' m'.groups = entries d m m.groups ∧
      entries blob m' m'.devices = entries d m m.devices ∧
      (logicalPartitions d m)[t]? = some p ∧
      lastIndex target ((logicalPartitions d m).map LogicalPartition.name) = some t ∧
      logicalPartitions blob m' = (logicalPartitions d m).set t (p.add e) ∧
      Fresh (logicalPartitions d m) (entries d m m.groups) (entries d m m.devices) p e ∧
      ceilSectors newSize ≤ (p.add e).sectors := by
  obtain ⟨firstLogical, devSectors, plan, idx, cur, high, newExt, hdev, hplan, hidx, hcur, hwant,
    hhigh, hroom, hgroup, hnew, hrebuild⟩ := patchSlot_eq_some h.parsed hb
  obtain ⟨hlen, hraw, hdecode⟩ := logicalPartitions_eq hplan
  obtain ⟨dev, hdev₀, rfl, hsize⟩ := deviceSizeSectors_eq_ok hdev
  obtain ⟨hfirst, hhighest⟩ := highSector_bounds hhigh
  obtain ⟨hnewlen, hnewext⟩ := newExtent_eq_ok hnew
  obtain ⟨entry, lst, hentry, hlst, -, hp, hcur'⟩ := target_of_plan hplan hidx hcur
  have hstart := alignUp8_spec high
  rw [h.extents_size] at hnewlen
  rw [List.getD_eq_getElem?_getD, hentry, Option.getD_some] at hgroup
  have hneed := alignUp8_spec (ceilSectors newSize - cur).toNat
  generalize alignUp8 (ceilSectors newSize - cur).toNat = need at *
  obtain ⟨m', hslot, hgroups, hdevices, hparts⟩ := rebuild_decodes h
    (fun p hp => by rw [h.length_entry (by simp) hp, h.partitions_size])
    (fun e he => (mem_flatten_modify he).elim
      (fun he => by rw [h.length_entry (by simp) (hraw e he), h.extents_size])
      (fun he => by rw [he, hnewlen]))
    (by rw [List.length_modify, hlen]) hrebuild
  refine ⟨m', idx, _, extentOf newExt, hslot, hgroups, hdevices, hp, ?_, ?_, ?_, ?_⟩
  · rw [Slot.names_eq, ← hidx]
    simp only [indexOf, lastIndex, List.length_map, List.getElem?_map]
  · rw [hparts, hdecode]
    exact decodeWith_modify hentry hlst
  · rw [hnewext]
    refine ⟨⟨rfl, rfl, hstart.1, hneed.1⟩, ?_, ?_, ?_⟩
    · intro s hs a ha ha'
      obtain ⟨x, hx, rfl⟩ := List.mem_map.mp hs
      obtain ⟨hx, hlinear⟩ := List.mem_filter.mp hx
      obtain ⟨q, hq, hx⟩ := List.mem_flatMap.mp hx
      obtain ⟨raw, hraw, rfl⟩ := exists_raw_of_mem (hdecode ▸ hq) hx
      have hend := hhighest raw hraw (of_decide_eq_true hlinear).1
      have hlo : alignUp8 high ≤ a := ha'.1
      have hhi : a < (extentOf raw).targetData + (extentOf raw).numSectors := ha.2
      omega
    · intro dev' hdev'
      obtain rfl := Option.some.inj (hdev₀.symm.trans hdev')
      refine ⟨hfirst.trans hstart.2.1, ?_⟩
      rw [hsize]
      exact Nat.mul_le_mul_right _ hroom
    · intro group hgroupget hmax
      rw [hdecode]
      exact checkGroup_eq_ok hgroup hgroupget hmax
  · rw [hnewext, LogicalPartition.sectors, LogicalPartition.add, List.map_append, List.sum_append]
    change _ ≤ (((withExtents entry (lst.map extentOf)).sectors + (need + 0) : ℕ) : ℤ)
    omega

/-- A copy that is not written. -/
theorem copyKept_of_window (h128 : 128 ≤ maxSize) (hin : base + maxSize ≤ d.length)
    (hlen : out.length = d.length) (hwindow : window out base maxSize = window d base maxSize) :
    CopyKept d out base maxSize where
  none h := by rw [parseMetadata_congr h128 hin hlen hwindow, h]
  kept ps _ _ h := ⟨ps, h.congr (hlen ▸ hin) hwindow, extends_refl ps⟩

theorem CopySound.of_window (h : CopySound d base maxSize) (h128 : 128 ≤ maxSize)
    (hin : base + maxSize ≤ d.length) (hlen : out.length = d.length)
    (hwindow : window out base maxSize = window d base maxSize) : CopySound out base maxSize := by
  rcases h with hnone | ⟨ps, groups, devices, hreads, hsound⟩
  · exact Or.inl ((copyKept_of_window h128 hin hlen hwindow).none hnone)
  · exact Or.inr ⟨ps, groups, devices, hreads.congr (hlen ▸ hin) hwindow, hsound⟩

theorem CopyKept.refl : CopyKept d d base maxSize where
  none h := h
  kept ps _ _ h := ⟨ps, h, extends_refl ps⟩

theorem CopyKept.trans {out' : Bytes} (h : CopyKept d out base maxSize)
    (h' : CopyKept out out' base maxSize) : CopyKept d out' base maxSize where
  none hnone := h'.none (h.none hnone)
  kept ps groups devices hreads := by
    obtain ⟨ps', hreads', hext⟩ := h.kept ps groups devices hreads
    obtain ⟨ps'', hreads'', hext'⟩ := h'.kept ps' groups devices hreads'
    exact ⟨ps'', hreads'', extends_trans hext hext'⟩

/-- What was granted stays granted. -/
theorem CopyGrants.kept (h : CopyGrants d base maxSize target newSize)
    (hsound : CopySound d base maxSize) (hkept : CopyKept d out base maxSize) :
    CopyGrants out base maxSize target newSize := by
  intro ps' gs ds hreads'
  rcases hsound with hnone | ⟨ps, groups, devices, hreads, -⟩
  · exact absurd (hkept.none hnone) hreads'.not_none
  · obtain ⟨ps'', hreads'', hext⟩ := hkept.kept ps groups devices hreads
    obtain ⟨rfl, -⟩ := hreads''.unique hreads'
    exact (h ps groups devices hreads).extends hext

/-- A copy that is left alone gives the target its size already. -/
theorem copyGrants_of_none (hnone : patchSlot sha d base target newSize = .ok none) :
    CopyGrants d base maxSize target newSize := by
  rintro ps groups devices ⟨m, hslot, rfl, -⟩
  rcases patchSlot_eq_ok hnone with ⟨hparse, -⟩ | ⟨m', hparse, hpatched⟩
  · rw [hslot.parsed] at hparse
    exact absurd (Except.ok.inj hparse) (Option.some_ne_none m)
  · obtain rfl := Option.some.inj (Except.ok.inj (hslot.parsed.symm.trans hparse))
    obtain ⟨_, _, plan, idx, cur, -, hplan, hidx, hcur, hcase⟩ := patchParsed_eq_ok hpatched
    obtain ⟨entry, lst, -, -, -, hp, rfl⟩ := target_of_plan hplan hidx hcur
    rcases hcase with ⟨hlarge, -⟩ | ⟨_, _, blob, -, hsome⟩
    · refine ⟨idx, _, ?_, hp, hlarge⟩
      rw [Slot.names_eq, ← hidx]
      simp only [indexOf, lastIndex, List.length_map, List.getElem?_map]
    · exact absurd hsome.symm (Option.some_ne_none blob)

/-- A copy that has grown: sound as before, and larger. -/
theorem copy_grown (hin : base + maxSize ≤ out.length)
    (hreads : CopySays d base maxSize ps groups devices) (hsound : Sound ps groups devices)
    (hb : patchSlot sha d base target newSize = .ok (some blob)) (hsize : blob.length ≤ maxSize)
    (hwindow : window out base maxSize = blob ++ List.replicate (maxSize - blob.length) 0) :
    ∃ ps', CopySays out base maxSize ps' groups devices ∧ Sound ps' groups devices ∧
      List.Forall₂ Extends ps ps' ∧ LargeEnough ps' target newSize := by
  obtain ⟨m, hslot, rfl, rfl, rfl⟩ := hreads
  obtain ⟨m', t, p, e, hslot', hgroups, hdevices, hp, ht, hparts, hfresh, hlarge⟩ :=
    patchSlot_fresh hslot hb
  have hstands : window out base blob.length = blob := by
    rw [← Nat.add_zero base, ← window_window (n := maxSize) (by omega), hwindow,
      window_append_left (by omega), window_zero_length]
  obtain ⟨hplaced, hsame⟩ := hslot'.placed (by omega) hstands
  have hentries := fun t ht => hslot'.enclosed.entries_placed hstands (t := t) ht
  refine ⟨_, ⟨_, hplaced.mono hsize hin, hsame.trans hparts, ?_, ?_⟩, hsound.add hp hfresh,
    extends_set hp hfresh.toAdded, t, p.add e, ?_, ?_, hlarge⟩
  · exact (hentries m'.groups (by simp)).trans hgroups
  · exact (hentries m'.devices (by simp)).trans hdevices
  · rw [names_of_extends (extends_set hp hfresh.toAdded), ht]
  · rw [List.getElem?_set_self (List.getElem?_eq_some_iff.mp hp).1]

/-- **One copy**, by the run for its slot. -/
theorem copy_step (h128 : 128 ≤ maxSize) (hin : base + maxSize ≤ d.length)
    (hlen : out.length = d.length) (hsound : CopySound d base maxSize)
    (hwritten : CopyWritten sha d base maxSize target newSize out) :
    CopySound out base maxSize ∧ CopyKept d out base maxSize ∧
      CopyGrants out base maxSize target newSize := by
  rcases hwritten with ⟨hnone, hwindow⟩ | ⟨blob, hb, hsize, hwindow⟩
  · have hkept := copyKept_of_window h128 hin hlen hwindow
    exact ⟨hsound.of_window h128 hin hlen hwindow, hkept,
      (copyGrants_of_none hnone).kept hsound hkept⟩
  · have hheader : parseMetadata d base ≠ .ok none := by
      intro hnone
      rw [patchSlot, hnone] at hb
      exact absurd (pure_eq_ok.mp hb) (Option.some_ne_none blob).symm
    rcases hsound with hnone | ⟨ps, groups, devices, hreads, hsound⟩
    · exact absurd hnone hheader
    · obtain ⟨ps', hreads', hsound', hext, hlarge⟩ :=
        copy_grown (hlen ▸ hin) hreads hsound hb hsize hwindow
      refine ⟨Or.inr ⟨ps', groups, devices, hreads', hsound'⟩, ⟨fun h => absurd h hheader, ?_⟩, ?_⟩
      · intro qs gs ds hqs
        obtain ⟨rfl, rfl, rfl⟩ := hreads.unique hqs
        exact ⟨ps', hreads', hext⟩
      · intro qs gs ds hqs
        obtain ⟨rfl, -⟩ := hreads'.unique hqs
        exact hlarge

end Copies

/-! ### Whole runs -/

/-- The two copies of slot `k`. -/
def Geometry.copies (g : Geometry) (k : ℕ) : List ℕ := [g.primary k, g.backup k]

/-- The arguments of a run, with a slot number that is not negative. -/
structure Request where
  target : Text
  newSize : ℤ
  slot : ℕ

/-- A run on the dump that the runs before have left. A request is granted if it exits 0. -/
def Request.step (sha : Sha256) (d : Bytes) (q : Request) : Bytes × Option Request :=
  match main sha d q.target q.newSize q.slot with
  | .ok out => (out, some q)
  | .error _ => (d, none)

/-- The dump holds the metadata, and every copy is sound or has no header. -/
structure SoundSuper (d : Bytes) (g : Geometry) : Prop where
  geometry : readGeometry d = .ok g
  room : metaBase + g.maxSize * g.slotCount * 2 ≤ d.length
  copies : ∀ j < g.slotCount, ∀ base ∈ g.copies j, CopySound d base g.maxSize

/-- What requests make of the dump `d₀`, when those in `granted` were granted. -/
structure Resized (d₀ : Bytes) (g : Geometry) (granted : List Request) (d : Bytes) : Prop where
  sound : SoundSuper d g
  length_eq : d.length = d₀.length
  /-- Nothing changes outside the metadata slots. -/
  outside : ∀ i, (i < metaBase ∨ metaBase + g.maxSize * g.slotCount * 2 ≤ i) → d[i]? = d₀[i]?
  kept : ∀ j < g.slotCount, ∀ base ∈ g.copies j, CopyKept d₀ d base g.maxSize
  granted : ∀ q ∈ granted, q.slot < g.slotCount ∧
    ∀ base ∈ g.copies q.slot, CopyGrants d base g.maxSize q.target q.newSize

section Runs

variable {sha : Sha256} {d₀ d out : Bytes} {g : Geometry} {granted : List Request} {q : Request}

theorem Geometry.copies_inside (g : Geometry) {j base : ℕ} (hj : j < g.slotCount)
    (hbase : base ∈ g.copies j) :
    metaBase ≤ base ∧ base + g.maxSize ≤ metaBase + g.maxSize * g.slotCount * 2 := by
  obtain ⟨hprimary, hend, hmiddle, hend'⟩ := g.slots hj
  simp only [Geometry.copies, List.mem_cons, List.not_mem_nil, or_false] at hbase
  rcases hbase with rfl | rfl <;> omega

theorem resized_refl (h : SoundSuper d g) : Resized d g [] d where
  sound := h
  length_eq := rfl
  outside _ _ := rfl
  kept _ _ _ _ := CopyKept.refl
  granted _ hq := absurd hq List.not_mem_nil

/-- One granted request, for every copy of every slot. -/
theorem copies_step (h : SoundSuper d g) (hq : main sha d q.target q.newSize q.slot = .ok out) :
    q.slot < g.slotCount ∧
      Framed sha d g q.slot q.target q.newSize out ∧
      (∀ base ∈ g.copies q.slot, CopyGrants out base g.maxSize q.target q.newSize) ∧
      ∀ j < g.slotCount, ∀ base ∈ g.copies j,
        CopySound out base g.maxSize ∧ CopyKept d out base g.maxSize := by
  obtain ⟨g', _, _, hg, hslot, -, h128, -, -, -, -, -, hframed⟩ := main_framed hq
  obtain rfl := Except.ok.inj (hg.symm.trans h.geometry)
  have hlen := hframed.length_eq
  have hown : ∀ base ∈ g'.copies q.slot, CopySound out base g'.maxSize ∧
      CopyKept d out base g'.maxSize ∧ CopyGrants out base g'.maxSize q.target q.newSize := by
    intro base hbase
    have hin := (g'.copies_inside hslot hbase).2.trans h.room
    have hsound := h.copies q.slot hslot base hbase
    simp only [Geometry.copies, List.mem_cons, List.not_mem_nil, or_false] at hbase
    rcases hbase with rfl | rfl
    · exact copy_step h128 hin hlen hsound hframed.primary
    · exact copy_step h128 hin hlen hsound hframed.backup
  refine ⟨hslot, hframed, fun base hbase => (hown base hbase).2.2, ?_⟩
  intro j hj base hbase
  by_cases hjq : j = q.slot
  · subst hjq
    exact ⟨(hown base hbase).1, (hown base hbase).2.1⟩
  · have hin := (g'.copies_inside hj hbase).2.trans h.room
    have hsound := h.copies j hj base hbase
    have hwindow : window out base g'.maxSize = window d base g'.maxSize := by
      obtain ⟨hprimary, hbackup⟩ := hframed.others j hj hjq
      simp only [Geometry.copies, List.mem_cons, List.not_mem_nil, or_false] at hbase
      rcases hbase with rfl | rfl
      · exact hprimary
      · exact hbackup
    exact ⟨hsound.of_window h128 hin hlen hwindow, copyKept_of_window h128 hin hlen hwindow⟩

/-- One granted request. -/
theorem Resized.step (h : Resized d₀ g granted d)
    (hq : main sha d q.target q.newSize q.slot = .ok out) :
    Resized d₀ g (granted ++ [q]) out := by
  obtain ⟨hslot, hframed, hgrants, hcopies⟩ := copies_step h.sound hq
  have hlen := hframed.length_eq
  refine ⟨⟨?_, hlen ▸ h.sound.room, fun j hj base hbase => (hcopies j hj base hbase).1⟩,
    hlen.trans h.length_eq, ?_, ?_, ?_⟩
  · rw [readGeometry_congr hlen hframed.geometry]
    exact h.sound.geometry
  · intro i hi
    obtain ⟨hprimary, hend, hmiddle, hend'⟩ := g.slots hslot
    rw [hframed.outside i (by omega) (by omega)]
    exact h.outside i hi
  · exact fun j hj base hbase => (h.kept j hj base hbase).trans (hcopies j hj base hbase).2
  · intro x hx
    rcases List.mem_append.mp hx with hx | hx
    · obtain ⟨hxslot, hxgrants⟩ := h.granted x hx
      refine ⟨hxslot, fun base hbase => ?_⟩
      exact (hxgrants base hbase).kept (h.sound.copies _ hxslot base hbase)
        (hcopies _ hxslot base hbase).2
    · obtain rfl := List.mem_singleton.mp hx
      exact ⟨hslot, hgrants⟩

/-- **Whole runs of requests.** A dump whose copies are sound has sound copies after any requests
for any slots. Groups and block devices are as they were, no partition has lost or moved an extent,
nothing outside the slots has changed, and every request that was granted still is. -/
theorem resizes_sound (h : SoundSuper d g) (qs : List Request) :
    Resized d g (outputs (Request.step sha) d qs) (after (Request.step sha) d qs) := by
  have halong : Along (Request.step sha) (fun _ _ _ => True) [] d qs :=
    along_iff.mpr fun _ _ _ _ => trivial
  refine run_inv ?_ (resized_refl h) halong
  intro granted s q hinv _
  rw [Request.step]
  cases hq : main sha s q.target q.newSize q.slot with
  | ok out => exact hinv.step hq
  | error e =>
    rw [Option.toList_none, List.append_nil]
    exact hinv

end Runs

/-! ### The small dump -/

theorem logicalPartitions_small : logicalPartitions smallSlot smallMetadata
    = [⟨['a'], 0, [⟨8, 0, 2048, 0⟩], 0⟩, ⟨['b'], 0, [], 0⟩] := by
  decide +kernel

theorem sound_small : Sound (logicalPartitions smallSlot smallMetadata)
    (entries smallSlot smallMetadata smallMetadata.groups)
    (entries smallSlot smallMetadata smallMetadata.devices) where
  separate source := by
    rw [logicalPartitions_small]
    refine List.Pairwise.map _ (fun _ _ h => h) (List.Pairwise.filter _ ?_)
    exact List.pairwise_singleton _ _
  inside dev hdev s hs := by
    have hdevs : ∀ x ∈ entries smallSlot smallMetadata smallMetadata.devices,
        leAt 8 x 0 = 2048 ∧ leAt 8 x 16 = 2 ^ 30 := by
      decide +kernel
    rw [logicalPartitions_small] at hs
    obtain ⟨hfirst, hsize⟩ := hdevs dev (List.mem_of_getElem? hdev)
    obtain rfl := List.mem_singleton.mp hs
    rw [hfirst, hsize]
    decide
  limits i group hgroup _ := by
    have hgroups : ∀ x ∈ entries smallSlot smallMetadata smallMetadata.groups,
        leAt 8 x 40 = 2 ^ 20 := by
      decide +kernel
    have hused : groupSectors (logicalPartitions smallSlot smallMetadata) i ≤ 8 := by
      rw [logicalPartitions_small]
      cases i with
      | zero => decide
      | succ i => exact Nat.zero_le 8
    rw [hgroups group (List.mem_of_getElem? hgroup)]
    omega

/-- A copy of the small slot, wherever it stands. -/
theorem copySays_small {image : Bytes} {base : ℕ} (hin : base + 512 ≤ image.length)
    (hstands : window image base smallSlot.length = smallSlot) :
    CopySays image base 512 (logicalPartitions smallSlot smallMetadata)
      (entries smallSlot smallMetadata smallMetadata.groups)
      (entries smallSlot smallMetadata smallMetadata.devices) := by
  have hlength := length_smallSlot
  have hentries := fun t ht => slot_small_self.enclosed.entries_placed hstands (t := t) ht
  obtain ⟨hslot, hsame⟩ := slot_small_self.placed (by omega) hstands
  exact ⟨_, hslot.mono (by omega) hin, hsame, hentries smallMetadata.groups (by simp),
    hentries smallMetadata.devices (by simp)⟩

/-- The copies of a dump that begins with the small one. -/
theorem copies_small (rest : Bytes) {base : ℕ} (hbase : base ∈ smallGeometry.copies 0) :
    CopySays (smallDump ++ rest) base 512 (logicalPartitions smallSlot smallMetadata)
      (entries smallSlot smallMetadata smallMetadata.groups)
      (entries smallSlot smallMetadata smallMetadata.devices) := by
  have hall := length_smallDump
  have hlength := length_smallSlot
  have hin : base + 512 ≤ 13312 := by
    have := (smallGeometry.copies_inside (by decide) hbase).2
    exact this.trans (by decide)
  refine copySays_small (by rw [List.length_append]; omega) ?_
  rw [window_append_left (by omega)]
  simp only [Geometry.copies, List.mem_cons, List.not_mem_nil, or_false] at hbase
  rcases hbase with rfl | rfl
  · exact primary_stands _
  · exact backup_stands

theorem soundSuper_small (rest : Bytes) : SoundSuper (smallDump ++ rest) smallGeometry where
  geometry := by
    rw [smallDump, List.append_assoc]
    exact readGeometry_small _
  room := by
    rw [List.length_append, length_smallDump]
    exact Nat.le_add_right _ _
  copies j hj base hbase := by
    obtain rfl : j = 0 := Nat.lt_one_iff.mp hj
    exact Or.inr ⟨_, _, _, copies_small rest hbase, sound_small⟩

/-- `a` is made larger, then `b`. -/
theorem resizes_sound_small :
    let qs : List Request := [⟨['a'], 8192, 0⟩, ⟨['b'], 4096, 0⟩]
    Resized (smallDump ++ []) smallGeometry (outputs (Request.step smallSha) (smallDump ++ []) qs)
      (after (Request.step smallSha) (smallDump ++ []) qs) :=
  resizes_sound (soundSuper_small []) _

end LpResize

end PalmaEos
