import PalmaEos.LpResizeRebuild

/-!
# Growing a partition

Growing a logical partition never lays an extent on live data: a blob that `patchSlot` returns
decodes to the same partitions, but for one LINEAR extent more at the end of the target's, behind
everything in use.

## Main results

* `patchSlot_eq_some` — the checks that were passed when there is a blob
* `patchSlot_grows` — the growth
-/

namespace PalmaEos

namespace LpResize

open LpUnpack (Extent)

/-! ### What the checks of `patch_slot` establish -/

section Values

theorem extentFields_eq_ok {e : Bytes} {r : ℕ × ℕ × ℕ} (h : extentFields e = .ok r) :
    r = ((extentOf e).numSectors, (extentOf e).targetType, (extentOf e).targetData) := by
  rw [extentFields] at h
  obtain ⟨b, hb, h⟩ := bind_eq_ok.mp h
  obtain ⟨-, rfl⟩ := unpackFrom_eq_ok.mp hb
  rw [← pure_eq_ok.mp h, leAt_window (by omega), leAt_window (by omega), leAt_window (by omega)]
  simp only [Nat.zero_add, extentOf]

/-- The sectors of a list of raw extents. -/
def rawSectors (lst : List Bytes) : ℕ := ((lst.map extentOf).map Extent.numSectors).sum

theorem sectors_eq_ok {lst : List Bytes} {n : ℕ} (h : sectors lst = .ok n) :
    n = rawSectors lst := by
  rw [sectors] at h
  obtain ⟨fields, hfields, h⟩ := bind_eq_ok.mp h
  rw [← pure_eq_ok.mp h, mapM_eq_map (fun e _ r hr => extentFields_eq_ok hr) hfields, rawSectors,
    List.map_map, List.map_map]
  rfl

/-- The highest sector is at or after the first usable one and after every LINEAR extent. -/
theorem highSector_bounds {firstLogical high : ℕ} {plan : List (List Bytes)}
    (h : highSector firstLogical plan = .ok high) :
    firstLogical ≤ high ∧ ∀ e ∈ plan.flatten, (extentOf e).targetType = 0 →
      (extentOf e).targetData + (extentOf e).numSectors ≤ high := by
  rw [highSector] at h
  generalize plan.flatten = exts at h
  induction exts generalizing firstLogical with
  | nil =>
    rw [List.foldlM_nil, pure_eq_ok] at h
    exact ⟨h.le, fun e he => absurd he List.not_mem_nil⟩
  | cons e exts ih =>
    rw [List.foldlM_cons] at h
    obtain ⟨b, hb, h⟩ := bind_eq_ok.mp h
    obtain ⟨r, hr, hb⟩ := bind_eq_ok.mp hb
    obtain ⟨hfirst, hrest⟩ := ih h
    rw [extentFields_eq_ok hr] at hb
    have hb' := pure_eq_ok.mp hb
    split_ifs at hb' with htype
    · refine ⟨by omega, List.forall_mem_cons.mpr ⟨fun _ => by omega, hrest⟩⟩
    · refine ⟨by omega, List.forall_mem_cons.mpr ⟨fun hzero => absurd hzero htype, hrest⟩⟩

theorem planOf_eq_ok {exts lst : List Bytes} {p : Bytes} (h : planOf exts p = .ok lst) :
    lst = window exts (leAt 4 p 40) (leAt 4 p 44) := by
  rw [planOf] at h
  obtain ⟨b, hb, h⟩ := bind_eq_ok.mp h
  obtain ⟨-, rfl⟩ := (unpackFrom_eq_ok (a := 40)).mp hb
  rw [← pure_eq_ok.mp h, leAt_window (by omega), leAt_window (by omega)]

theorem alignUp8_spec (n : ℕ) : 8 ∣ alignUp8 n ∧ n ≤ alignUp8 n ∧ alignUp8 n < n + 8 := by
  rw [alignUp8]
  omega

theorem newExtent_eq_ok {esz need start : ℕ} {e : Bytes} (h : newExtent esz need start = .ok e) :
    e.length = esz ∧ extentOf e = ⟨need, 0, start, 0⟩ := by
  rw [newExtent] at h
  obtain ⟨e₁, h₁, h⟩ := bind_eq_ok.mp h
  obtain ⟨bs₁, hbs₁, hw₁⟩ := packAt_eq_ok.mp h₁
  simp only [pack_cons_eq_some, pack_nil_eq_some] at hbs₁
  obtain ⟨hneed, _, ⟨hzero, _, ⟨hstart, _, rfl, rfl⟩, rfl⟩, rfl⟩ := hbs₁
  have hw₁ : Writes _ 0 _ e₁ := hw₁
  have hl₁ : (toLE 8 need ++ (toLE 4 0 ++ (toLE 8 start ++ []))).length = 20 := by simp
  have htype := leAt_append_right 4 (toLE 8 need) (toLE 4 0 ++ (toLE 8 start ++ [])) 0
  have hdata := leAt_append_right 8 (toLE 8 need ++ toLE 4 0) (toLE 8 start ++ []) 0
  rw [leAt_toLE_append hzero, length_toLE] at htype
  rw [leAt_toLE_append hstart, List.append_assoc, List.length_append, length_toLE,
    length_toLE] at hdata
  have hin := fun w i (hi : i + w ≤ 20) => hw₁.leAt_inside (w := w) (i := i) (by omega)
  simp only [Nat.zero_add] at hin
  -- the first twenty bytes are as packed; the last four are zeros, whether written or not
  obtain ⟨hlen, hfirst, hsource⟩ : e.length = esz ∧
      (∀ w i, i + w ≤ 20 → leAt w e i = leAt w e₁ i) ∧ leAt 4 e 20 = 0 := by
    split_ifs at h with h24
    · obtain ⟨bs₂, hbs₂, hw₂⟩ := packAt_eq_ok.mp h
      simp only [pack_cons_eq_some, pack_nil_eq_some] at hbs₂
      obtain ⟨_, _, rfl, rfl⟩ := hbs₂
      have hw₂ : Writes e₁ 20 _ e := hw₂
      have hl₂ : (toLE 4 0 ++ []).length = 4 := by simp
      refine ⟨by rw [hw₂.length_eq, hw₁.length_eq, List.length_replicate],
        fun w i hi => hw₂.leAt_outside (Or.inl hi), ?_⟩
      rw [show leAt 4 e 20 = leAt 4 e (20 + 0) from rfl, hw₂.leAt_inside (by omega),
        leAt_toLE_append hzero]
    · obtain rfl := pure_eq_ok.mp h
      refine ⟨by rw [hw₁.length_eq, List.length_replicate], fun _ _ _ => rfl, ?_⟩
      rw [hw₁.leAt_outside (by omega), leAt_replicate_zero]
  refine ⟨hlen, ?_⟩
  rw [extentOf, hfirst 8 0 (by omega), hfirst 4 8 (by omega), hfirst 8 12 (by omega), hsource,
    hin 8 0 (by omega), hin 4 8 (by omega), hin 8 12 (by omega), leAt_toLE_append hneed, htype,
    hdata]

end Values

/-! ### Group totals -/

/-- The sectors of the partitions in group `g`. -/
def groupSectors (parts : List LogicalPartition) (g : ℕ) : ℕ :=
  ((parts.filter fun p => p.group = g).map LogicalPartition.sectors).sum

/-- Partition entries with their raw extents, decoded. -/
abbrev decodeWith (parts : List Bytes) (plan : List (List Bytes)) : List LogicalPartition :=
  List.zipWith (fun p lst => withExtents p (lst.map extentOf)) parts plan

theorem decodeWith_cons (p : Bytes) (parts lst : List Bytes) (plan : List (List Bytes)) :
    decodeWith (p :: parts) (lst :: plan)
      = withExtents p (lst.map extentOf) :: decodeWith parts plan := rfl

theorem groupUsed_eq_ok {g : ℕ} : ∀ {parts : List Bytes} {plan : List (List Bytes)} {n : ℕ},
    groupUsed g (parts.zip plan) = .ok n → n = groupSectors (decodeWith parts plan) g
  | [], _, n, h => by
    rw [List.zip_nil_left, groupUsed, pure_eq_ok] at h
    exact h.symm
  | _ :: _, [], n, h => by
    rw [List.zip_nil_right, groupUsed, pure_eq_ok] at h
    exact h.symm
  | p :: parts, lst :: plan, n, h => by
    rw [List.zip_cons_cons, groupUsed] at h
    obtain ⟨b, hb, h⟩ := bind_eq_ok.mp h
    obtain ⟨-, rfl⟩ := (unpackFrom_eq_ok (a := 48)).mp hb
    rw [leAt_window (by omega), Nat.add_zero] at h
    rw [groupSectors, decodeWith_cons]
    split_ifs at h with hg
    · obtain ⟨k, hk, h⟩ := bind_eq_ok.mp h
      obtain ⟨rest, hrest, h⟩ := bind_eq_ok.mp h
      rw [List.filter_cons_of_pos (by rw [decide_eq_true_iff]; exact hg), List.map_cons,
        List.sum_cons, ← pure_eq_ok.mp h, sectors_eq_ok hk, groupUsed_eq_ok hrest]
      rfl
    · rw [List.filter_cons_of_neg (by rw [decide_eq_true_iff]; exact hg), groupUsed_eq_ok h]
      rfl

/-- Growing one partition of a group by one extent. -/
theorem groupSectors_set {p : LogicalPartition} {e : Extent} :
    ∀ {parts : List LogicalPartition} {t : ℕ}, parts[t]? = some p →
      groupSectors (parts.set t { p with extents := p.extents ++ [e] }) p.group
        = groupSectors parts p.group + e.numSectors
  | q :: parts, 0, h => by
    obtain rfl := Option.some.inj h
    rw [List.set_cons_zero, groupSectors, groupSectors, List.filter_cons_of_pos (by simp),
      List.filter_cons_of_pos (by simp), List.map_cons, List.map_cons, List.sum_cons,
      List.sum_cons, LogicalPartition.sectors, LogicalPartition.sectors, List.map_append,
      List.sum_append, List.map_singleton, List.sum_singleton]
    omega
  | q :: parts, t + 1, h => by
    have ih := groupSectors_set (e := e) (show parts[t]? = some p from h)
    rw [groupSectors, groupSectors] at ih
    rw [List.set_cons_succ, groupSectors, groupSectors]
    by_cases hq : q.group = p.group
    · rw [List.filter_cons_of_pos (by simpa using hq), List.filter_cons_of_pos (by simpa using hq),
        List.map_cons, List.map_cons, List.sum_cons, List.sum_cons, ih, Nat.add_assoc]
    · rw [List.filter_cons_of_neg (by simpa using hq), List.filter_cons_of_neg (by simpa using hq),
        ih]

/-- What the check of the group limit establishes. -/
theorem checkGroup_eq_ok {parts groups : List Bytes} {plan : List (List Bytes)} {part : Bytes}
    {need : ℕ} (h : checkGroup parts groups plan part need = .ok ()) {group : Bytes}
    (hgroup : groups[leAt 4 part 48]? = some group) (hmax : leAt 8 group 40 ≠ 0) :
    (groupSectors (decodeWith parts plan) (leAt 4 part 48) + need) * 512 ≤ leAt 8 group 40 := by
  rw [checkGroup] at h
  obtain ⟨b, hb, h⟩ := bind_eq_ok.mp h
  obtain ⟨-, rfl⟩ := (unpackFrom_eq_ok (a := 48)).mp hb
  rw [leAt_window (by omega), Nat.add_zero] at h
  simp only [hgroup] at h
  obtain ⟨b, hb, h⟩ := bind_eq_ok.mp h
  obtain ⟨-, rfl⟩ := (unpackFrom_eq_ok (a := 40)).mp hb
  rw [leAt_window (by omega), Nat.add_zero, if_neg hmax] at h
  obtain ⟨used, hused, h⟩ := bind_eq_ok.mp h
  rw [groupUsed_eq_ok hused] at h
  exact not_lt.mp (guard_eq_ok.mp h).1

/-! ### The growth -/

section Growth

variable {sha : Sha256} {d blob : Bytes} {base slotSize : ℕ} {m : Metadata} {target : Text}
  {newSize : ℤ}

/-- How many sectors a request of `newSize` bytes takes, `⌈newSize / 512⌉`. -/
def ceilSectors (newSize : ℤ) : ℤ := -(-newSize / 512)

theorem patchSlot_eq_ok {base : ℤ} {r : Option Bytes}
    (h : patchSlot sha d base target newSize = .ok r) :
    parseMetadata d base = .ok none ∧ r = none ∨
      ∃ m, parseMetadata d base = .ok (some m) ∧ patchParsed sha d m target newSize = .ok r := by
  rw [patchSlot] at h
  obtain ⟨m, hm, h⟩ := bind_eq_ok.mp h
  cases m with
  | none => exact Or.inl ⟨hm, (pure_eq_ok.mp h).symm⟩
  | some m => exact Or.inr ⟨m, hm, h⟩

/-- The checks that `patch_slot` has passed when it returns a blob. -/
structure Grows (sha : Sha256) (d : Bytes) (m : Metadata) (newSize : ℤ) (devSectors : ℕ)
    (firstLogical : ℕ) (plan : List (List Bytes)) (idx cur high : ℕ) (newExt blob : Bytes) :
    Prop where
  small : (cur : ℤ) < ceilSectors newSize
  high_eq : highSector firstLogical plan = .ok high
  room : alignUp8 high + alignUp8 (ceilSectors newSize - cur).toNat ≤ devSectors
  group_ok : checkGroup (entries d m m.partitions) (entries d m m.groups) plan
    ((entries d m m.partitions).getD idx []) (alignUp8 (ceilSectors newSize - cur).toNat) = .ok ()
  newExt_eq : newExtent m.extents.entrySize (alignUp8 (ceilSectors newSize - cur).toNat)
    (alignUp8 high) = .ok newExt
  rebuild_eq : rebuild sha d m (entries d m m.partitions) (plan.modify idx (· ++ [newExt]))
    = .ok blob

/-- **The steps of `patch_slot`** when it returns, with a blob or without. -/
theorem patchParsed_eq_ok {r : Option Bytes} (h : patchParsed sha d m target newSize = .ok r) :
    ∃ firstLogical devSectors plan idx cur,
      deviceSizeSectors d m = .ok (firstLogical, devSectors) ∧
      (entries d m m.partitions).mapM (planOf (entries d m m.extents)) = .ok plan ∧
      indexOf target (entries d m m.partitions) = some idx ∧
      sectors (plan.getD idx []) = .ok cur ∧
      (ceilSectors newSize ≤ cur ∧ r = none ∨ ∃ high newExt blob,
        Grows sha d m newSize devSectors firstLogical plan idx cur high newExt blob ∧
          r = some blob) := by
  have hwant : (newSize + (SECTOR : ℕ) - 1) / ((SECTOR : ℕ) : ℤ) = ceilSectors newSize := by
    rw [ceilSectors, SECTOR]
    omega
  simp only [patchParsed, hwant] at h
  obtain ⟨⟨firstLogical, devSectors⟩, hdev, h⟩ := bind_eq_ok.mp h
  obtain ⟨plan, hplan, h⟩ := bind_eq_ok.mp h
  cases hidx : indexOf target (entries d m m.partitions) with
  | none =>
    simp only [hidx] at h
    exact (nomatch h)
  | some idx =>
    simp only [hidx] at h
    obtain ⟨cur, hcur, h⟩ := bind_eq_ok.mp h
    refine ⟨firstLogical, devSectors, plan, idx, cur, hdev, hplan, rfl, hcur, ?_⟩
    split_ifs at h with hsmall
    · exact Or.inl ⟨hsmall, (pure_eq_ok.mp h).symm⟩
    · obtain ⟨high, hhigh, h⟩ := bind_eq_ok.mp h
      obtain ⟨hroom, h⟩ := guard_eq_ok.mp h
      obtain ⟨⟨⟩, hgroup, h⟩ := bind_eq_ok.mp h
      obtain ⟨newExt, hnew, h⟩ := bind_eq_ok.mp h
      obtain ⟨blob, hblob, h⟩ := bind_eq_ok.mp h
      exact Or.inr ⟨high, newExt, blob,
        ⟨not_le.mp hsmall, hhigh, by omega, hgroup, hnew, hblob⟩, (pure_eq_ok.mp h).symm⟩

/-- The steps of `patch_slot` when it returns a blob. -/
theorem patchSlot_eq_some (h : parseMetadata d base = .ok (some m))
    (hb : patchSlot sha d base target newSize = .ok (some blob)) :
    ∃ firstLogical devSectors plan idx cur high newExt,
      deviceSizeSectors d m = .ok (firstLogical, devSectors) ∧
      (entries d m m.partitions).mapM (planOf (entries d m m.extents)) = .ok plan ∧
      indexOf target (entries d m m.partitions) = some idx ∧
      sectors (plan.getD idx []) = .ok cur ∧
      Grows sha d m newSize devSectors firstLogical plan idx cur high newExt blob := by
  rcases patchSlot_eq_ok hb with ⟨hnone, -⟩ | ⟨m', hm', hparsed⟩
  · exact absurd (Except.ok.inj (h.symm.trans hnone)) (by simp)
  · obtain rfl := Option.some.inj (Except.ok.inj (h.symm.trans hm'))
    obtain ⟨firstLogical, devSectors, plan, idx, cur, hdev, hplan, hidx, hcur, hcase⟩ :=
      patchParsed_eq_ok hparsed
    rcases hcase with ⟨-, hnone⟩ | ⟨high, newExt, blob', hgrows, hsome⟩
    · exact absurd hnone (by simp)
    · obtain rfl := Option.some.inj hsome
      exact ⟨firstLogical, devSectors, plan, idx, cur, high, newExt, hdev, hplan, hidx, hcur,
        hgrows⟩

theorem indexOf_eq_some {parts : List Bytes} {idx : ℕ} (h : indexOf target parts = some idx) :
    ∃ p, parts[idx]? = some p ∧ partName p = target := by
  have hmem := List.mem_filter.mp (List.mem_of_getLast? h)
  simpa using of_decide_eq_true hmem.2

/-- Block device 0 as the size check reads it. -/
theorem deviceSizeSectors_eq_ok {firstLogical devSectors : ℕ}
    (h : deviceSizeSectors d m = .ok (firstLogical, devSectors)) :
    ∃ dev, (entries d m m.devices)[0]? = some dev ∧ leAt 8 dev 0 = firstLogical ∧
      leAt 8 dev 16 = devSectors * 512 := by
  rw [deviceSizeSectors] at h
  cases hdevs : entries d m m.devices with
  | nil =>
    rw [hdevs] at h
    exact (nomatch h)
  | cons dev devs =>
    simp only [hdevs] at h
    obtain ⟨b₁, hb₁, h⟩ := bind_eq_ok.mp h
    obtain ⟨b₂, hb₂, h⟩ := bind_eq_ok.mp h
    obtain ⟨-, rfl⟩ := (unpackFrom_eq_ok (a := 0)).mp hb₁
    obtain ⟨-, rfl⟩ := (unpackFrom_eq_ok (a := 16)).mp hb₂
    obtain ⟨hsize, h⟩ := guard_eq_ok.mp h
    rw [leAt_window (by omega), leAt_window (by omega), Nat.zero_add, Nat.add_zero] at *
    obtain ⟨rfl, rfl⟩ := Prod.mk.injEq .. ▸ pure_eq_ok.mp h
    refine ⟨dev, rfl, rfl, ?_⟩
    rw [not_or, not_not, SECTOR] at hsize
    rw [SECTOR]
    omega

/-- The decoded partitions of a slot, as its entries with the extents `patch_slot` plans with. -/
theorem logicalPartitions_eq {plan : List (List Bytes)}
    (h : (entries d m m.partitions).mapM (planOf (entries d m m.extents)) = .ok plan) :
    plan.length = (entries d m m.partitions).length ∧
      (∀ e ∈ plan.flatten, e ∈ entries d m m.extents) ∧
      logicalPartitions d m = decodeWith (entries d m m.partitions) plan := by
  obtain rfl := mapM_eq_map (fun p _ lst hlst => planOf_eq_ok hlst) h
  refine ⟨by rw [List.length_map], fun e he => ?_, ?_⟩
  · obtain ⟨lst, hlst, he⟩ := List.mem_flatten.mp he
    obtain ⟨p, -, rfl⟩ := List.mem_map.mp hlst
    exact List.mem_of_mem_drop (List.mem_of_mem_take he)
  · rw [logicalPartitions, decodeWith, List.zipWith_map_right, List.zipWith_self]
    refine List.map_congr_left ?_
    intro p _
    rw [partitionOf, window_map]

/-- The target, among the decoded partitions. -/
theorem target_of_plan {plan : List (List Bytes)} {idx cur : ℕ}
    (hplan : (entries d m m.partitions).mapM (planOf (entries d m m.extents)) = .ok plan)
    (hidx : indexOf target (entries d m m.partitions) = some idx)
    (hcur : sectors (plan.getD idx []) = .ok cur) :
    ∃ entry lst, (entries d m m.partitions)[idx]? = some entry ∧ plan[idx]? = some lst ∧
      partName entry = target ∧
      (logicalPartitions d m)[idx]? = some (withExtents entry (lst.map extentOf)) ∧
      cur = (withExtents entry (lst.map extentOf)).sectors := by
  obtain ⟨hlen, -, hdecode⟩ := logicalPartitions_eq hplan
  obtain ⟨entry, hentry, hname⟩ := indexOf_eq_some hidx
  obtain ⟨lst, hlst⟩ : ∃ lst, plan[idx]? = some lst :=
    ⟨_, List.getElem?_eq_getElem (by
      rw [hlen]
      exact (List.getElem?_eq_some_iff.mp hentry).1)⟩
  refine ⟨entry, lst, hentry, hlst, hname, ?_, ?_⟩
  · rw [hdecode, List.getElem?_zipWith, hentry, hlst]
  · rw [List.getD_eq_getElem?_getD, hlst, Option.getD_some] at hcur
    exact sectors_eq_ok hcur

/-- Appending to the plan of one partition appends to its decoded extents. -/
theorem decodeWith_modify {entry e : Bytes} {lst : List Bytes} :
    ∀ {parts : List Bytes} {plan : List (List Bytes)} {t : ℕ}, parts[t]? = some entry →
      plan[t]? = some lst →
      decodeWith parts (plan.modify t (· ++ [e]))
        = (decodeWith parts plan).set t (withExtents entry (lst.map extentOf ++ [extentOf e]))
  | p :: parts, l :: plan, 0, hentry, hlst => by
    obtain rfl := Option.some.inj hentry
    obtain rfl := Option.some.inj hlst
    rw [List.modify_zero_cons, decodeWith_cons, decodeWith_cons, List.set_cons_zero,
      List.map_append, List.map_singleton]
  | p :: parts, l :: plan, t + 1, hentry, hlst => by
    rw [List.modify_succ_cons, decodeWith_cons, decodeWith_cons, List.set_cons_succ,
      decodeWith_modify (show parts[t]? = _ from hentry) (show plan[t]? = _ from hlst)]

/-- A decoded extent is one of the plan. -/
theorem exists_raw_of_mem {q : LogicalPartition} {x : Extent} :
    ∀ {parts : List Bytes} {plan : List (List Bytes)}, q ∈ decodeWith parts plan → x ∈ q.extents →
      ∃ e ∈ plan.flatten, extentOf e = x
  | p :: parts, lst :: plan, hq, hx => by
    rw [decodeWith_cons] at hq
    rw [List.flatten_cons]
    rcases List.mem_cons.mp hq with rfl | hq
    · obtain ⟨e, he, hex⟩ := List.mem_map.mp hx
      exact ⟨e, List.mem_append_left _ he, hex⟩
    · obtain ⟨e, he, hex⟩ := exists_raw_of_mem hq hx
      exact ⟨e, List.mem_append_right _ he, hex⟩

theorem mem_flatten_modify {e x : Bytes} : ∀ {plan : List (List Bytes)} {t : ℕ},
    x ∈ (plan.modify t (· ++ [e])).flatten → x ∈ plan.flatten ∨ x = e
  | [], t, hx => by simp at hx
  | l :: plan, 0, hx => by
    rw [List.modify_zero_cons, List.flatten_cons, List.mem_append, List.mem_append,
      List.mem_singleton] at hx
    rw [List.flatten_cons, List.mem_append]
    tauto
  | l :: plan, t + 1, hx => by
    rw [List.modify_succ_cons, List.flatten_cons, List.mem_append] at hx
    rw [List.flatten_cons, List.mem_append, or_assoc]
    exact hx.imp_right mem_flatten_modify

/-- **Growing a partition never lays an extent on live data.** The blob decodes to the partitions
of the slot, with one LINEAR extent on device 0 more at the end of the target's; groups and block
devices are the same. The new extent starts on a multiple of eight sectors, at or after the first
logical sector, ends inside block device 0, and meets no LINEAR extent. The target is as large as
was asked for, by less than eight sectors more, and its group keeps to its maximum. -/
theorem patchSlot_grows (h : Slot d base slotSize m)
    (hb : patchSlot sha d base target newSize = .ok (some blob)) :
    ∃ m' t p e dev, Slot blob 0 blob.length m' ∧
      entries blob m' m'.groups = entries d m m.groups ∧
      entries blob m' m'.devices = entries d m m.devices ∧
      (logicalPartitions d m)[t]? = some p ∧ p.name = target ∧
      logicalPartitions blob m'
        = (logicalPartitions d m).set t { p with extents := p.extents ++ [e] } ∧
      e.targetType = 0 ∧ e.targetSource = 0 ∧
      (entries d m m.devices)[0]? = some dev ∧ 8 ∣ e.targetData ∧ leAt 8 dev 0 ≤ e.targetData ∧
      (e.targetData + e.numSectors) * 512 ≤ leAt 8 dev 16 ∧
      (∀ q ∈ logicalPartitions d m, ∀ x ∈ q.extents, x.targetType = 0 → ∀ s,
        Layout.Covers (x.targetData, x.numSectors) s →
          ¬ Layout.Covers (e.targetData, e.numSectors) s) ∧
      ceilSectors newSize ≤ (p.sectors + e.numSectors : ℕ) ∧
      ((p.sectors + e.numSectors : ℕ) : ℤ) < ceilSectors newSize + 8 ∧
      ∀ group, (entries d m m.groups)[p.group]? = some group → leAt 8 group 40 ≠ 0 →
        groupSectors (logicalPartitions blob m') p.group * 512 ≤ leAt 8 group 40 := by
  obtain ⟨firstLogical, devSectors, plan, idx, cur, high, newExt, hdev, hplan, hidx, hcur, hwant,
    hhigh, hroom, hgroup, hnew, hrebuild⟩ := patchSlot_eq_some h.parsed hb
  obtain ⟨hlen, hraw, hdecode⟩ := logicalPartitions_eq hplan
  obtain ⟨dev, hdev₀, hfirst, hsize⟩ := deviceSizeSectors_eq_ok hdev
  obtain ⟨hhigh₀, hhigh₁⟩ := highSector_bounds hhigh
  obtain ⟨hnewlen, hnewext⟩ := newExtent_eq_ok hnew
  rw [h.extents_size] at hnewlen
  generalize hneed : alignUp8 (ceilSectors newSize - cur).toNat = need at *
  have hneed' := alignUp8_spec (ceilSectors newSize - cur).toNat
  have hstart := alignUp8_spec high
  -- the target and its extents
  obtain ⟨entry, lst, hentry, hlst, hname, hp, hcur'⟩ := target_of_plan hplan hidx hcur
  have hgroup' : (withExtents entry (lst.map extentOf)).group
      = leAt 4 ((entries d m m.partitions).getD idx []) 48 := by
    rw [List.getD_eq_getElem?_getD, hentry, Option.getD_some]
    rfl
  -- the rebuilt slot
  obtain ⟨m', hslot, hgroups, hdevices, hnewparts⟩ := rebuild_decodes h
    (fun p hp => by rw [h.length_entry (by simp) hp, h.partitions_size])
    (fun e he => (mem_flatten_modify he).elim
      (fun he => by rw [h.length_entry (by simp) (hraw e he), h.extents_size])
      (fun he => by rw [he, hnewlen]))
    (by rw [List.length_modify, hlen]) hrebuild
  have hgrown : logicalPartitions blob m'
      = (logicalPartitions d m).set idx
          { withExtents entry (lst.map extentOf) with
            extents := (withExtents entry (lst.map extentOf)).extents ++
              [⟨need, 0, alignUp8 high, 0⟩] } := by
    rw [hnewparts, ← hnewext, hdecode]
    exact decodeWith_modify hentry hlst
  refine ⟨m', idx, _, ⟨need, 0, alignUp8 high, 0⟩, dev, hslot, hgroups, hdevices, hp, hname, hgrown,
    rfl, rfl, hdev₀, hstart.1, ?_, ?_, ?_, ?_, ?_, ?_⟩
  · rw [hfirst]
    exact hhigh₀.trans hstart.2.1
  · rw [hsize]
    exact Nat.mul_le_mul_right _ hroom
  · intro q hq x hx hlinear s hs hs'
    obtain ⟨raw, hraw, rfl⟩ := exists_raw_of_mem (hdecode ▸ hq) hx
    have hend := hhigh₁ raw hraw hlinear
    have hlo : alignUp8 high ≤ s := hs'.1
    have hhi : s < (extentOf raw).targetData + (extentOf raw).numSectors := hs.2
    omega
  · rw [← hcur']
    change _ ≤ ((cur + need : ℕ) : ℤ)
    omega
  · rw [← hcur']
    change ((cur + need : ℕ) : ℤ) < _
    omega
  · intro group hgroupget hmax
    rw [hgrown, groupSectors_set hp, hdecode]
    rw [hgroup'] at hgroupget ⊢
    exact checkGroup_eq_ok hgroup hgroupget hmax

end Growth

/-! ### A slot with two partitions

`a` has eight sectors at sector 2048 and `b` has none. -/

/-- A slot of 368 bytes. -/
def smallSlot : Bytes :=
  toLE 4 HEADER_MAGIC ++ toLE 2 10 ++ toLE 2 2 ++ toLE 4 128 ++ toLE 32 0 ++ toLE 4 240 ++
    toLE 32 0 ++ toLE 12 (52 * 2 ^ 64 + 2 * 2 ^ 32) ++ toLE 12 (24 * 2 ^ 64 + 1 * 2 ^ 32 + 104) ++
    toLE 12 (48 * 2 ^ 64 + 1 * 2 ^ 32 + 128) ++ toLE 12 (64 * 2 ^ 64 + 1 * 2 ^ 32 + 176) ++
    toLE 36 97 ++ toLE 16 (1 * 2 ^ 64) ++ toLE 36 98 ++ toLE 16 (1 * 2 ^ 32) ++
    toLE 8 8 ++ toLE 4 0 ++ toLE 8 2048 ++ toLE 4 0 ++
    toLE 40 103 ++ toLE 8 (2 ^ 20) ++ toLE 8 2048 ++ toLE 8 0 ++ toLE 8 (2 ^ 30) ++ toLE 40 0

def smallMetadata : Metadata :=
  ⟨0, (10, 2), 128, 240, ⟨0, 2, 52⟩, ⟨104, 1, 24⟩, ⟨128, 1, 48⟩, ⟨176, 1, 64⟩⟩

/-- SHA-256 on the header and the tables that growing `a` to 8192 bytes hashes. -/
def smallSha : Sha256 where
  digest x := toLE 32 (if x.length = 128 then
      0x111e62e02a4f444a2e11c14940149f49c3301dfa0f1680d287df79ce908915bd
    else 0xcc1971b6a84ad375ce23eb8000c1b25ba927f52269b71253877b5671157a98b7)
  length_digest _ := length_toLE 32 _

/-- What growing `a` to 8192 bytes makes of the slot. -/
def grownSlot : Bytes :=
  match patchSlot smallSha smallSlot 0 ['a'] 8192 with
  | .ok (some blob) => blob
  | _ => []

theorem slot_small : Slot smallSlot 0 368 smallMetadata where
  parsed := by decide +kernel
  slot_inside := by decide +kernel
  hdrSize := by decide
  tables_inside := by decide
  partitions_size := rfl
  extents_size := rfl
  groups_size := rfl
  devices_size := rfl
  ranges_inside := by decide +kernel

theorem patchSlot_small :
    patchSlot smallSha smallSlot (0 : ℕ) ['a'] 8192 = .ok (some grownSlot) := by
  decide +kernel

theorem length_smallSlot : smallSlot.length = 368 := by decide +kernel

theorem patchSlot_grows_small : ∃ m' t p e,
    (logicalPartitions smallSlot smallMetadata)[t]? = some p ∧ p.name = ['a'] ∧
      logicalPartitions grownSlot m' = (logicalPartitions smallSlot smallMetadata).set t
        { p with extents := p.extents ++ [e] } ∧
      e.targetType = 0 ∧ 8 ∣ e.targetData ∧
      (16 : ℤ) ≤ (p.sectors + e.numSectors : ℕ) ∧ ((p.sectors + e.numSectors : ℕ) : ℤ) < 24 := by
  obtain ⟨m', t, p, e, dev, -, -, -, hp, hname, hgrown, htype, -, -, halign, -, -, -, hlo, hhi,
    -⟩ := patchSlot_grows slot_small patchSlot_small
  exact ⟨m', t, p, e, hp, hname, hgrown, htype, halign, hlo, hhi⟩

end LpResize

end PalmaEos
