import Mathlib.Order.Bounds.Basic
import PalmaEos.LpResizeMain

/-!
# What a copy of the metadata says

`Content` is what a copy says, apart from its checksums and from where its tables and extents stand.
Growing a copy is a function of its content, and the content of what it becomes determines the
content it had.

## Main results

* `patchSlot_eq_of_content` — copies that say the same grow alike
* `Regrown.content_eq`, `grow_injective` — the content of a copy that grew
* `grownCopy_iff` — when a grown copy is intact
-/

namespace PalmaEos

namespace LpResize

/-! ### What a copy says -/

/-- The content of a copy: the header without checksums, tables size and descriptors, the entry
sizes, the groups and block devices tables (number of entries, entry size, bytes), and what every
partition entry says. -/
structure Content where
  head : Bytes
  tail : Bytes
  partSize : ℕ
  extentSize : ℕ
  groups : ℕ × ℕ × Bytes
  devices : ℕ × ℕ × Bytes
  parts : List PartContent
  deriving DecidableEq

def contentOf (d : Bytes) (m : Metadata) : Content where
  head := (pySlice d m.base (m.base + m.hdrSize)).take 12
  tail := (pySlice d m.base (m.base + m.hdrSize)).drop 128
  partSize := m.partitions.entrySize
  extentSize := m.extents.entrySize
  groups := (m.groups.numEntries, m.groups.entrySize, tableBlob d m m.groups)
  devices := (m.devices.numEntries, m.devices.entrySize, tableBlob d m m.devices)
  parts := (entries d m m.partitions).map (partContent (entries d m m.extents))

/-- The content of the copy at `base`, if there is a header. -/
def copyContent (d : Bytes) (base : ℕ) : Option Content :=
  match parseMetadata d base with
  | .ok (some m) => some (contentOf d m)
  | _ => none

/-- No entry of a table is cut short by the end of the dump. -/
structure Content.Whole (c : Content) : Prop where
  parts : ∀ p ∈ c.parts, p.before.length + 8 + p.after.length = c.partSize
  extents : ∀ p ∈ c.parts, ∀ e ∈ p.extents, e.length = c.extentSize
  groups : c.groups.2.2.length = c.groups.1 * c.groups.2.1
  devices : c.devices.2.2.length = c.devices.1 * c.devices.2.1

/-- The content with one extent more at the end of partition `idx`. -/
def Content.grow (c : Content) (idx : ℕ) (e : Bytes) : Content :=
  { c with parts := c.parts.modify idx fun p => { p with extents := p.extents ++ [e] } }

/-- The index of the last name that is `target`. -/
def lastIndex (target : Text) (names : List Text) : Option ℕ :=
  ((List.range names.length).filter fun i => names[i]? = some target).getLast?

/-- The names of the partitions. -/
def Content.names (c : Content) : List Text := c.parts.map fun p => partName p.before

/-- Where the target is. -/
def Content.index (c : Content) (target : Text) : Option ℕ := lastIndex target c.names

section Content

variable {d : Bytes} {base : ℕ} {m : Metadata} {c c' : Content} {target : Text}

theorem copyContent_of_parse (h : parseMetadata d base = .ok (some m)) :
    copyContent d base = some (contentOf d m) := by
  rw [copyContent, h]

theorem Enclosed.contentOf_placed {blob image : Bytes} {base : ℕ} {m : Metadata}
    (h : Enclosed blob m) (hstands : window image base blob.length = blob) :
    contentOf image (m.movedTo base) = contentOf blob m := by
  rw [contentOf, h.header_placed hstands, contentOf,
    ← h.tableBlob_placed hstands (t := m.groups) (by simp),
    ← h.tableBlob_placed hstands (t := m.devices) (by simp),
    ← h.entries_placed hstands (t := m.partitions) (by simp),
    ← h.entries_placed hstands (t := m.extents) (by simp)]
  rfl

theorem Enclosed.copyContent_placed {blob image : Bytes} {base : ℕ} {m : Metadata}
    (h : Enclosed blob m) (hin : base + blob.length ≤ image.length)
    (hstands : window image base blob.length = blob) :
    copyContent image base = some (contentOf blob m) := by
  rw [copyContent_of_parse (h.parsed_placed hin hstands), h.contentOf_placed hstands]

theorem copyContent_eq_some (h : copyContent d base = some c) :
    ∃ m, parseMetadata d base = .ok (some m) ∧ m.base = base ∧ contentOf d m = c := by
  rw [copyContent] at h
  split at h
  · rename_i m hm
    exact ⟨m, hm, base_of_parseMetadata hm, Option.some.inj h⟩
  · exact absurd h (by simp)

theorem indexOf_eq_index : indexOf target (entries d m m.partitions)
    = (contentOf d m).index target := by
  have hnames : (contentOf d m).names = (entries d m m.partitions).map partName := by
    rw [Content.names, contentOf, List.map_map]
    exact List.map_congr_left fun p _ => partName_take p
  simp only [indexOf, Content.index, lastIndex, hnames, List.length_map, List.getElem?_map]

theorem logicalPartitions_eq_decode :
    logicalPartitions d m = (contentOf d m).parts.map PartContent.decode := by
  rw [logicalPartitions, contentOf, List.map_map]
  exact List.map_congr_left fun p _ => (decode_partContent _ p).symm

@[simp] theorem names_grow (idx : ℕ) (e : Bytes) : (c.grow idx e).names = c.names := by
  refine List.ext_getElem? ?_
  intro i
  rw [Content.names, Content.names, Content.grow, List.getElem?_map, List.getElem?_map,
    List.getElem?_modify]
  cases c.parts[i]? with
  | none => simp
  | some p => split_ifs <;> rfl

/-- A content is determined by what it grows to. -/
theorem grow_injective {idx : ℕ} {e e' : Bytes} (h : c.grow idx e = c'.grow idx e') : c = c' := by
  have hshrink : ∀ (x : Content) (e : Bytes), { x.grow idx e with
      parts := (x.grow idx e).parts.modify idx
        fun p => { p with extents := p.extents.dropLast } } = x := by
    intro x e
    have hparts : (x.parts.modify idx fun p => { p with extents := p.extents ++ [e] }).modify idx
        (fun p => { p with extents := p.extents.dropLast }) = x.parts := by
      refine List.ext_getElem? ?_
      intro i
      rw [List.getElem?_modify, List.getElem?_modify]
      cases x.parts[i]? with
      | none => simp
      | some p =>
        by_cases hi : idx = i
        · simp [hi]
        · simp [hi]
    rw [Content.grow, hparts]
  rw [← hshrink c e, h, hshrink c' e']

end Content

/-! ### Growing is a function of the content -/

section Congr

variable {sha : Sha256} {d d' b b' : Bytes} {base base' : ℕ} {m m' : Metadata} {target : Text}
  {newSize : ℤ} {r r' : Option Bytes}

theorem packAt_range_eq {p p' : Bytes} {cursor n : ℕ}
    (h : packAt p 40 [(4, cursor), (4, n)] = .ok p') :
    p' = p.take 40 ++ (toLE 4 cursor ++ toLE 4 n) ++ p.drop 48 := by
  obtain ⟨bs, hbs, -, rfl⟩ := packAt_eq_ok.mp h
  simp only [pack_cons_eq_some, pack_nil_eq_some] at hbs
  obtain ⟨-, _, ⟨-, _, rfl, rfl⟩, rfl⟩ := hbs
  simp [splice]

/-- Re-indexing looks at an entry outside its old range only. -/
theorem reindex_congr {parts' qs' : List Bytes} :
    ∀ {parts qs : List Bytes} {plan : List (List Bytes)} {cursor : ℕ},
      parts.map (fun p => (p.take 40, p.drop 48)) = qs.map (fun p => (p.take 40, p.drop 48)) →
      reindex cursor (parts.zip plan) = .ok parts' → reindex cursor (qs.zip plan) = .ok qs' →
      parts' = qs'
  | [], [], _, _, _, h, h' => Except.ok.inj (h.symm.trans h')
  | [], _ :: _, _, _, hsame, _, _ => (nomatch hsame)
  | _ :: _, [], _, _, hsame, _, _ => (nomatch hsame)
  | _ :: _, _ :: _, [], _, _, h, h' => Except.ok.inj (h.symm.trans h')
  | p :: parts, q :: qs, lst :: plan, cursor, hsame, h, h' => by
    rw [List.map_cons, List.map_cons, List.cons.injEq, Prod.mk.injEq] at hsame
    rw [List.zip_cons_cons, reindex] at h h'
    obtain ⟨p', hp', h⟩ := bind_eq_ok.mp h
    obtain ⟨q', hq', h'⟩ := bind_eq_ok.mp h'
    obtain ⟨rest, hrest, h⟩ := bind_eq_ok.mp h
    obtain ⟨rest', hrest', h'⟩ := bind_eq_ok.mp h'
    rw [← pure_eq_ok.mp h, ← pure_eq_ok.mp h', packAt_range_eq hp', packAt_range_eq hq',
      hsame.1.1, hsame.1.2, reindex_congr hsame.2 hrest hrest']

/-- Sealing a header looks at what it keeps only. -/
theorem sealHeader_congr {hdr hdr' tables : Bytes} {ts : List LpUnpack.Descriptor}
    (hts : ts.length = 4) (htake : hdr.take 12 = hdr'.take 12)
    (hdrop : hdr.drop 128 = hdr'.drop 128) :
    sealHeader sha hdr tables ts = sealHeader sha hdr' tables ts := by
  have hsplice : ∀ x : Bytes, x.length = 116 → splice hdr 12 x = splice hdr' 12 x := by
    intro x hx
    rw [splice, splice, hx, htake, hdrop]
  have hfields : (toLE 4 tables.length ++ sha.digest tables ++ ts.flatMap descBytes).length
      = 84 := by
    rw [List.length_append, List.length_append, length_toLE, sha.length_digest,
      length_flatMap_descBytes, hts]
  rw [sealHeader, sealHeader,
    hsplice _ (by rw [List.length_append, sha.length_digest, hfields]),
    hsplice _ (by rw [List.length_append, List.length_replicate, hfields])]

variable (hc : contentOf d m = contentOf d' m')

include hc

theorem deviceSizeSectors_congr (hbase : m.base = base) (hbase' : m'.base = base') :
    deviceSizeSectors d m = deviceSizeSectors d' m' := by
  have hdevices := congrArg Content.devices hc
  simp only [contentOf, Prod.mk.injEq] at hdevices
  rw [deviceSizeSectors, deviceSizeSectors, entries_eq_tableBlob hbase,
    entries_eq_tableBlob hbase', hdevices.1, hdevices.2.1, hdevices.2.2]

theorem rebuild_congr {parts qs : List Bytes} {plan : List (List Bytes)} (hbase : m.base = base)
    (hbase' : m'.base = base') (hparts : parts = entries d m m.partitions)
    (hqs : qs = entries d' m' m'.partitions) (h : rebuild sha d m parts plan = .ok b)
    (h' : rebuild sha d' m' qs plan = .ok b') : b = b' := by
  obtain ⟨parts', tables, ts, hparts', htables, hts, -, -, -, rfl⟩ := rebuild_eq_ok hbase h
  obtain ⟨qs', tables', ts', hqs', htables', hts', -, -, -, rfl⟩ := rebuild_eq_ok hbase' h'
  rw [contentOf, contentOf, Content.mk.injEq, Prod.mk.injEq, Prod.mk.injEq, Prod.mk.injEq,
    Prod.mk.injEq, header_eq_window hbase, header_eq_window hbase'] at hc
  obtain ⟨hhead, htail, hpsz, hesz, ⟨hgn, hgsz, hgblob⟩, ⟨hdn, hdsz, hdblob⟩, hcontent⟩ := hc
  have hsame : parts.map (fun p => (p.take 40, p.drop 48))
      = qs.map (fun p => (p.take 40, p.drop 48)) := by
    have hkept := congrArg (List.map fun p : PartContent => (p.before, p.after)) hcontent
    rw [List.map_map, List.map_map] at hkept
    rw [hparts, hqs]
    exact hkept
  obtain rfl := reindex_congr hsame hparts' hqs'
  obtain rfl : tables = tables' := by rw [htables, htables', hgblob, hdblob]
  obtain rfl : ts = ts' := by rw [hts, hts', hpsz, hesz, hgn, hgsz, hdn, hdsz]
  rw [sealHeader_congr (by rw [hts, length_layout]; rfl) hhead htail]

/-- **Copies that say the same grow alike.** -/
theorem patchSlot_eq_of_content (hm : parseMetadata d base = .ok (some m))
    (hm' : parseMetadata d' base' = .ok (some m'))
    (h : patchSlot sha d base target newSize = .ok r)
    (h' : patchSlot sha d' base' target newSize = .ok r') : r = r' := by
  have hbase := base_of_parseMetadata hm
  have hbase' := base_of_parseMetadata hm'
  rw [patchSlot, hm] at h
  rw [patchSlot, hm'] at h'
  obtain ⟨firstLogical, devSectors, plan, idx, cur, hdev, hplan, hidx, hcur, hr⟩ :=
    patchParsed_eq_ok h
  obtain ⟨firstLogical', devSectors', plan', idx', cur', hdev', hplan', hidx', hcur', hr'⟩ :=
    patchParsed_eq_ok h'
  rw [deviceSizeSectors_congr hc hbase hbase', hdev', Except.ok.injEq, Prod.mk.injEq] at hdev
  obtain ⟨rfl, rfl⟩ := hdev
  have hplans : plan = plan' := by
    have hextents := congrArg (fun c => c.parts.map PartContent.extents) hc
    simp only [contentOf, List.map_map] at hextents
    rw [mapM_eq_map (fun p _ lst hlst => planOf_eq_ok hlst) hplan,
      mapM_eq_map (fun p _ lst hlst => planOf_eq_ok hlst) hplan']
    exact hextents
  subst hplans
  rw [indexOf_eq_index, hc, ← indexOf_eq_index, hidx', Option.some.injEq] at hidx
  subst hidx
  obtain rfl := Except.ok.inj (hcur.symm.trans hcur')
  rcases hr with ⟨hle, rfl⟩ | ⟨high, newExt, b, hgrows, rfl⟩ <;>
    rcases hr' with ⟨hle', rfl⟩ | ⟨high', newExt', b', hgrows', rfl⟩
  · rfl
  · exact absurd hgrows'.small (not_lt.mpr hle)
  · exact absurd hgrows.small (not_lt.mpr hle')
  · obtain rfl := Except.ok.inj (hgrows.high_eq.symm.trans hgrows'.high_eq)
    have hesz : m.extents.entrySize = m'.extents.entrySize := congrArg Content.extentSize hc
    have hnew := hgrows.newExt_eq
    rw [hesz, hgrows'.newExt_eq] at hnew
    obtain rfl := Except.ok.inj hnew
    rw [rebuild_congr hc hbase hbase' rfl rfl hgrows.rebuild_eq hgrows'.rebuild_eq]

end Congr

/-! ### The extent that is missing -/

/-- `e` is the extent that is missing from partition `p` of a copy that says `c`, for a request of
`newSize` bytes: LINEAR, on block device 0, as small as it can be in steps of eight sectors, and at
the first multiple of eight behind everything in use. -/
def NextExtent (c : Content) (p : PartContent) (newSize : ℤ) (e : Bytes) : Prop :=
  ∃ need start,
    IsLeast {n | 8 ∣ n ∧ ceilSectors newSize ≤ (p.decode.sectors + n : ℕ)} need ∧
    IsLeast {s | 8 ∣ s ∧ leAt 8 c.devices.2.2 0 ≤ s ∧ ∀ q ∈ c.parts, ∀ x ∈ q.decode.extents,
      x.targetType = 0 → x.targetData + x.numSectors ≤ s} start ∧
    e = toLE 8 need ++ toLE 4 0 ++ toLE 8 start ++ List.replicate (c.extentSize - 20) 0

section NextExtent

variable {c : Content} {p : PartContent} {newSize : ℤ} {e e' : Bytes}

theorem NextExtent.unique (h : NextExtent c p newSize e) (h' : NextExtent c p newSize e') :
    e = e' := by
  obtain ⟨need, start, hneed, hstart, rfl⟩ := h
  obtain ⟨need', start', hneed', hstart', rfl⟩ := h'
  rw [hneed.unique hneed', hstart.unique hstart']

theorem alignUp8_le {n s : ℕ} (h : 8 ∣ s) (hn : n ≤ s) : alignUp8 n ≤ s := by
  obtain ⟨k, rfl⟩ := h
  rw [alignUp8]
  omega

/-- The highest sector is not behind the first usable one and every LINEAR extent. -/
theorem highSector_le {firstLogical high s : ℕ} {plan : List (List Bytes)}
    (h : highSector firstLogical plan = .ok high) (hfirst : firstLogical ≤ s)
    (hends : ∀ e ∈ plan.flatten, (extentOf e).targetType = 0 →
      (extentOf e).targetData + (extentOf e).numSectors ≤ s) : high ≤ s := by
  rw [highSector] at h
  generalize plan.flatten = exts at h hends
  induction exts generalizing firstLogical with
  | nil =>
    rw [List.foldlM_nil, pure_eq_ok] at h
    exact h ▸ hfirst
  | cons e exts ih =>
    rw [List.foldlM_cons] at h
    obtain ⟨b, hb, h⟩ := bind_eq_ok.mp h
    obtain ⟨r, hr, hb⟩ := bind_eq_ok.mp hb
    rw [extentFields_eq_ok hr] at hb
    have hb' := pure_eq_ok.mp hb
    rw [List.forall_mem_cons] at hends
    refine ih ?_ h hends.2
    split_ifs at hb' with htype
    · have := hends.1 htype
      omega
    · omega

/-- The bytes of the new extent. -/
theorem newExtent_eq_entry {esz need start : ℕ} (h : newExtent esz need start = .ok e) :
    e = toLE 8 need ++ toLE 4 0 ++ toLE 8 start ++ List.replicate (esz - 20) 0 := by
  rw [newExtent] at h
  obtain ⟨e₁, h₁, h⟩ := bind_eq_ok.mp h
  obtain ⟨bs, hbs, hroom, rfl⟩ := packAt_eq_ok.mp h₁
  simp only [pack_cons_eq_some, pack_nil_eq_some] at hbs
  obtain ⟨-, _, ⟨-, _, ⟨-, _, rfl, rfl⟩, rfl⟩, rfl⟩ := hbs
  have hfields : toLE 8 need ++ (toLE 4 0 ++ (toLE 8 start ++ []))
      = toLE 8 need ++ toLE 4 0 ++ toLE 8 start := by
    rw [List.append_nil, List.append_assoc]
  rw [hfields] at h hroom
  have hlen : (toLE 8 need ++ toLE 4 0 ++ toLE 8 start).length = 20 := by simp
  have hfirst : splice (List.replicate esz 0) 0 (toLE 8 need ++ toLE 4 0 ++ toLE 8 start)
      = toLE 8 need ++ toLE 4 0 ++ toLE 8 start ++ List.replicate (esz - 20) 0 := by
    rw [splice, hlen, List.take_zero, List.nil_append, Nat.zero_add, List.drop_replicate]
  rw [hfirst] at h
  split_ifs at h with h24
  · -- the last four bytes are zeros already
    obtain ⟨bs, hbs, -, rfl⟩ := packAt_eq_ok.mp h
    simp only [pack_cons_eq_some, pack_nil_eq_some] at hbs
    obtain ⟨-, _, rfl, rfl⟩ := hbs
    rw [splice, List.take_left' hlen, List.append_assoc (toLE 8 need ++ toLE 4 0 ++ toLE 8 start),
      List.append_nil, length_toLE, ← List.drop_drop, List.drop_left' hlen, List.drop_replicate,
      show toLE 4 0 = List.replicate 4 0 from rfl, List.replicate_append_replicate,
      show 4 + (esz - 20 - 4) = esz - 20 by omega]
  · exact (pure_eq_ok.mp h).symm

end NextExtent

/-! ### The copy that grew -/

section Grown

variable {sha : Sha256} {d blob : Bytes} {base maxSize : ℕ} {m : Metadata} {target : Text}
  {newSize : ℤ}

/-- The extents `patch_slot` plans with, partition by partition. -/
def planned (d : Bytes) (m : Metadata) : List (List Bytes) :=
  (entries d m m.partitions).map fun p =>
    window (entries d m m.extents) (leAt 4 p 40) (leAt 4 p 44)

/-- The extents of the plan are those of the content. -/
theorem mem_flatten_planned {e : Bytes} :
    e ∈ (planned d m).flatten ↔ ∃ p ∈ (contentOf d m).parts, e ∈ p.extents := by
  rw [planned, contentOf, List.mem_flatten]
  constructor
  · rintro ⟨lst, hlst, he⟩
    obtain ⟨p, hp, rfl⟩ := List.mem_map.mp hlst
    exact ⟨_, List.mem_map_of_mem hp, he⟩
  · rintro ⟨c, hc, he⟩
    obtain ⟨p, hp, rfl⟩ := List.mem_map.mp hc
    exact ⟨_, List.mem_map_of_mem hp, he⟩

/-- What `patch_slot` has done when it returns `blob`: the target, at `idx`, was `p`, too small, and
was given `newExt`. -/
structure Regrown (sha : Sha256) (d : Bytes) (base : ℕ) (m : Metadata) (target : Text)
    (newSize : ℤ) (blob : Bytes) (idx : ℕ) (p : PartContent) (newExt : Bytes)
    (parts' : List Bytes) (hdr tables : Bytes) : Prop where
  index_eq : (contentOf d m).index target = some idx
  entry_eq : (contentOf d m).parts[idx]? = some p
  small : (p.decode.sectors : ℤ) < ceilSectors newSize
  next : NextExtent (contentOf d m) p newSize newExt
  length_newExt : newExt.length = m.extents.entrySize
  newExt_sectors : ceilSectors newSize ≤ (p.decode.sectors + (extentOf newExt).numSectors : ℕ)
  base_eq : m.base = base
  inside : base + m.hdrSize ≤ d.length
  rebuilt : Rebuilt sha d base m (entries d m m.partitions)
    ((planned d m).modify idx (· ++ [newExt])) blob parts' hdr tables

/-- An entry of a table is where the table is, so the header before it is inside the dump. -/
theorem hdr_inside_of_entry {t : LpUnpack.Descriptor} {e : Bytes} (hbase : m.base = base)
    (he : e ∈ entries d m t) (hne : e ≠ []) : base + m.hdrSize ≤ d.length := by
  rw [entries_eq_records hbase] at he
  obtain ⟨i, -, rfl⟩ := List.mem_map.mp he
  have hpos := List.length_pos_iff.mpr hne
  rw [length_window] at hpos
  omega

theorem firstLogical_eq {firstLogical devSectors : ℕ} (hbase : m.base = base)
    (h : deviceSizeSectors d m = .ok (firstLogical, devSectors)) :
    firstLogical = leAt 8 (contentOf d m).devices.2.2 0 := by
  rw [deviceSizeSectors, entries_eq_tableBlob hbase] at h
  change firstLogical = leAt 8 (tableBlob d m m.devices) 0
  cases hnum : m.devices.numEntries with
  | zero =>
    rw [hnum] at h
    cases h
  | succ n =>
    rw [hnum, records_succ] at h
    obtain ⟨b, hb, h⟩ := bind_eq_ok.mp h
    obtain ⟨_, -, h⟩ := bind_eq_ok.mp h
    obtain ⟨hroom, rfl⟩ := (unpackFrom_eq_ok (a := 0)).mp hb
    obtain ⟨-, h⟩ := guard_eq_ok.mp h
    have hfirst := (Prod.mk.injEq .. ▸ pure_eq_ok.mp h).1
    rw [length_window] at hroom
    rw [← hfirst, leAt_window (by omega), Nat.add_zero, leAt_window (by omega)]

/-- The new extent, among what the copy says. -/
theorem Grows.nextExtent {devSectors firstLogical idx cur high : ℕ} {newExt : Bytes}
    {p : PartContent} (hbase : m.base = base)
    (hdev : deviceSizeSectors d m = .ok (firstLogical, devSectors))
    (h : Grows sha d m newSize devSectors firstLogical (planned d m) idx cur high newExt blob)
    (hcur : cur = p.decode.sectors) : NextExtent (contentOf d m) p newSize newExt := by
  subst hcur
  have hsmall := h.small
  have hneed := alignUp8_spec (ceilSectors newSize - p.decode.sectors).toNat
  have hstart := alignUp8_spec high
  obtain ⟨hfirst, hends⟩ := highSector_bounds h.high_eq
  refine ⟨_, _, ⟨⟨hneed.1, by omega⟩, ?_⟩, ⟨⟨hstart.1, ?_, ?_⟩, ?_⟩, newExtent_eq_entry h.newExt_eq⟩
  · rintro n ⟨hn, henough⟩
    exact alignUp8_le hn (by omega)
  · rw [← firstLogical_eq hbase hdev]
    exact hfirst.trans hstart.2.1
  · intro q hq x hx hlinear
    obtain ⟨e, he, rfl⟩ := List.mem_map.mp hx
    exact (hends e (mem_flatten_planned.mpr ⟨q, hq, he⟩) hlinear).trans hstart.2.1
  · rintro s ⟨hs, hfirst, hends⟩
    refine alignUp8_le hs (highSector_le h.high_eq ?_ ?_)
    · rw [firstLogical_eq hbase hdev]
      exact hfirst
    · intro e he hlinear
      obtain ⟨q, hq, he⟩ := mem_flatten_planned.mp he
      exact hends q hq (extentOf e) (List.mem_map_of_mem he) hlinear

/-- The size of a partition that was given one extent more. -/
theorem sectors_append (p : PartContent) (e : Bytes) :
    (PartContent.decode { p with extents := p.extents ++ [e] }).sectors
      = p.decode.sectors + (extentOf e).numSectors := by
  rw [LogicalPartition.sectors, PartContent.decode, List.map_append, List.map_append,
    List.sum_append, List.map_singleton, List.map_singleton, List.sum_singleton]
  rfl

/-- The target, among the partitions of the content. -/
theorem target_of_planned {idx cur : ℕ}
    (hidx : indexOf target (entries d m m.partitions) = some idx)
    (hcur : sectors ((planned d m).getD idx []) = .ok cur) :
    ∃ p, (contentOf d m).parts[idx]? = some p ∧ cur = p.decode.sectors := by
  obtain ⟨entry, hentry, -⟩ := indexOf_eq_some hidx
  refine ⟨_, by rw [contentOf, List.getElem?_map, hentry]; rfl, ?_⟩
  rw [sectors_eq_ok hcur, planned, List.getD_eq_getElem?_getD, List.getElem?_map, hentry]
  rfl

theorem patchSlot_regrown (hparse : parseMetadata d base = .ok (some m))
    (hb : patchSlot sha d base target newSize = .ok (some blob)) :
    ∃ idx p newExt parts' hdr tables,
      Regrown sha d base m target newSize blob idx p newExt parts' hdr tables := by
  have hbase := base_of_parseMetadata hparse
  obtain ⟨firstLogical, devSectors, plan, idx, cur, high, newExt, hdev, hplan, hidx, hcur,
    hgrows⟩ := patchSlot_eq_some hparse hb
  have hplan' : plan = planned d m := mapM_eq_map (fun p _ lst hlst => planOf_eq_ok hlst) hplan
  subst hplan'
  obtain ⟨p, hp, hsectors⟩ := target_of_planned hidx hcur
  obtain ⟨hlen, hext⟩ := newExtent_eq_ok hgrows.newExt_eq
  have halign := alignUp8_spec (ceilSectors newSize - cur).toNat
  have hneed : (extentOf newExt).numSectors = alignUp8 (ceilSectors newSize - cur).toNat := by
    rw [hext]
  -- the entry of the target is not empty, so the header is inside the dump
  obtain ⟨entry, hentry, -⟩ := indexOf_eq_some hidx
  obtain ⟨parts₀, -, -, hparts₀, -⟩ := rebuild_eq_ok hbase hgrows.rebuild_eq
  have hlong := (reindex_spec [] (by rw [List.length_modify, planned, List.length_map]) hparts₀).2.1
    entry (List.mem_of_getElem? hentry)
  have hinside := hdr_inside_of_entry hbase (List.mem_of_getElem? hentry) (by
    rintro rfl
    exact absurd hlong (by simp))
  obtain ⟨parts', hdr, tables, hrebuilt⟩ := rebuilt_of_eq_ok hparse hinside hbase hgrows.rebuild_eq
  refine ⟨idx, p, newExt, parts', hdr, tables, indexOf_eq_index ▸ hidx, hp, ?_,
    hgrows.nextExtent hbase hdev hsectors, hlen, ?_, hbase, hinside, hrebuilt⟩
  · exact hsectors ▸ hgrows.small
  · omega

variable {idx : ℕ} {p : PartContent} {newExt : Bytes} {parts' : List Bytes} {hdr tables : Bytes}

theorem zipWith_modify {e : Bytes} {parts : List Bytes}
    {plan : List (List Bytes)} :
    List.zipWith (fun p lst => PartContent.mk (p.take 40) (p.drop 48) lst) parts
        (plan.modify idx (· ++ [e]))
      = (List.zipWith (fun p lst => PartContent.mk (p.take 40) (p.drop 48) lst) parts plan).modify
          idx fun p => { p with extents := p.extents ++ [e] } := by
  refine List.ext_getElem? ?_
  intro i
  rw [List.getElem?_zipWith, List.getElem?_modify, List.getElem?_modify, List.getElem?_zipWith]
  cases parts[i]? with
  | none => simp
  | some p =>
    cases plan[i]? with
    | none => simp
    | some lst => split_ifs <;> rfl

theorem mem_flatten_modify_of_mem {e x : Bytes} {plan : List (List Bytes)} {t : ℕ}
    (h : x ∈ plan.flatten) : x ∈ (plan.modify t (· ++ [e])).flatten := by
  obtain ⟨lst, hlst, hx⟩ := List.mem_flatten.mp h
  obtain ⟨i, hi⟩ := List.mem_iff_getElem?.mp hlst
  refine List.mem_flatten.mpr
    ⟨if t = i then lst ++ [e] else lst, List.mem_of_getElem? (i := i) ?_, ?_⟩
  · rw [List.getElem?_modify, hi]
    split_ifs <;> rfl
  · split_ifs
    · exact List.mem_append_left _ hx
    · exact hx

/-- The entries of the grown copy. -/
theorem Regrown.entries_spec
    (h : Regrown sha d base m target newSize blob idx p newExt parts' hdr tables) :
    List.Forall₂ SameEntry (entries d m m.partitions) parts' ∧
      (∀ p ∈ entries d m m.partitions, 48 ≤ p.length) ∧
      parts'.map (partContent ((planned d m).modify idx (· ++ [newExt])).flatten)
        = ((contentOf d m).grow idx newExt).parts := by
  obtain ⟨hsame, hlong, -, hcontent⟩ := reindex_spec []
    (by rw [List.length_modify, planned, List.length_map]) h.rebuilt.reindexed
  rw [List.nil_append, zipWith_modify, planned, List.zipWith_map_right,
    List.zipWith_self] at hcontent
  exact ⟨hsame, hlong, hcontent⟩

theorem Regrown.entries_full
    (h : Regrown sha d base m target newSize blob idx p newExt parts' hdr tables) :
    (∀ p ∈ parts', p.length = m.partitions.entrySize) ↔
      ∀ p ∈ (contentOf d m).parts,
        p.before.length + 8 + p.after.length = (contentOf d m).partSize := by
  obtain ⟨hsame, hlong, -⟩ := h.entries_spec
  rw [forall_length_iff (· = m.partitions.entrySize) hsame, contentOf]
  simp only [List.forall_mem_map, partContent, List.length_take, List.length_drop]
  refine forall₂_congr fun p hp => ?_
  have := hlong p hp
  omega

theorem Regrown.extents_full
    (h : Regrown sha d base m target newSize blob idx p newExt parts' hdr tables) :
    (∀ e ∈ ((planned d m).modify idx (· ++ [newExt])).flatten, e.length = m.extents.entrySize) ↔
      ∀ p ∈ (contentOf d m).parts, ∀ e ∈ p.extents, e.length = (contentOf d m).extentSize := by
  constructor
  · intro hfull p hp e he
    exact hfull e (mem_flatten_modify_of_mem (mem_flatten_planned.mpr ⟨p, hp, he⟩))
  · intro hfull e he
    rcases mem_flatten_modify he with he | rfl
    · obtain ⟨p, hp, he⟩ := mem_flatten_planned.mp he
      exact hfull p hp e he
    · exact h.length_newExt

/-- **Reading a grown copy** gives the content of the old one, grown, whatever stands behind it. -/
theorem Regrown.content_eq
    (h : Regrown sha d base m target newSize blob idx p newExt parts' hdr tables)
    (hwhole : (contentOf d m).Whole) (post : Bytes) :
    copyContent (blob ++ post) 0 = some ((contentOf d m).grow idx newExt) := by
  have hbuilt := h.rebuilt
  obtain ⟨hreadP, hreadE, hreadG, hreadD⟩ := hbuilt.read (h.entries_full.mpr hwhole.parts)
    (h.extents_full.mpr hwhole.extents) hwhole.groups hwhole.devices post rfl
  rw [copyContent_of_parse (hbuilt.parsed post), Option.some.injEq]
  have hold := header_eq_window (d := d) h.base_eq
  have hnew : pySlice (blob ++ post) ((0 : ℕ) : ℤ) (((0 : ℕ) : ℤ) + m.hdrSize) = hdr := by
    rw [← Nat.cast_add, pySlice_natCast, Nat.zero_add, Nat.sub_zero, hbuilt.blob_eq,
      List.append_assoc, window_append_left (by rw [hbuilt.length_hdr, Nat.zero_add]),
      ← hbuilt.length_hdr, window_zero_length]
  have hlen : (window d base m.hdrSize).length = hdr.length := by
    rw [length_window_of_le h.inside, hbuilt.length_hdr]
  have hhead : hdr.take 12 = (window d base m.hdrSize).take 12 := hbuilt.kept 0 12 (by omega)
  have htail : hdr.drop 128 = (window d base m.hdrSize).drop 128 := by
    have hkept := hbuilt.kept 128 hdr.length (by omega)
    rwa [window, window, List.take_of_length_le (by rw [List.length_drop]; omega),
      List.take_of_length_le (by rw [List.length_drop]; omega)] at hkept
  have hparts := h.entries_spec.2.2
  rw [contentOf, hreadP, hreadE, hreadG, hreadD, hparts]
  change Content.mk ((pySlice (blob ++ post) ((0 : ℕ) : ℤ) (((0 : ℕ) : ℤ) + m.hdrSize)).take 12)
    ((pySlice (blob ++ post) ((0 : ℕ) : ℤ) (((0 : ℕ) : ℤ) + m.hdrSize)).drop 128) _ _ _ _ _ = _
  rw [hnew, hhead, htail, ← hold]
  rfl

/-- **An intact grown copy.** The target in `region` is as large as was asked for, the tables lie in
the bytes that are sealed, and both checksums are right. -/
structure GrownCopy (sha : Sha256) (region : Bytes) (target : Text) (newSize : ℤ) (m : Metadata) :
    Prop where
  parsed : parseMetadata region (0 : ℕ) = .ok (some m)
  sealed_inside : m.hdrSize + m.tablesSize ≤ region.length
  tables_sealed : ∀ t ∈ [m.partitions, m.extents, m.groups, m.devices],
    t.offset + t.numEntries * t.entrySize ≤ m.tablesSize
  header_checksum : window region H_HEADER_CSUM 32
    = sha.digest (splice (window region 0 m.hdrSize) H_HEADER_CSUM (List.replicate 32 0))
  tables_checksum : window region H_TABLES_CSUM 32
    = sha.digest (window region m.hdrSize m.tablesSize)
  grown : ∃ idx p, indexOf target (entries region m m.partitions) = some idx ∧
    (logicalPartitions region m)[idx]? = some p ∧ ceilSectors newSize ≤ p.sectors

theorem length_le_of_mem_entries {t : LpUnpack.Descriptor} {e : Bytes} (hbase : m.base = base)
    (he : e ∈ entries d m t) : e.length ≤ t.entrySize := by
  rw [entries_eq_records hbase] at he
  obtain ⟨i, -, rfl⟩ := List.mem_map.mp he
  rw [length_window]
  omega

/-- Tables that are sealed whole have no entry cut short. -/
theorem Regrown.whole_of_sealed
    (h : Regrown sha d base m target newSize blob idx p newExt parts' hdr tables)
    (hsealed : parts'.length * m.partitions.entrySize +
      ((planned d m).modify idx (· ++ [newExt])).flatten.length * m.extents.entrySize +
      m.groups.numEntries * m.groups.entrySize + m.devices.numEntries * m.devices.entrySize
        ≤ tables.length) : (contentOf d m).Whole := by
  have hparts : ∀ p ∈ parts', p.length ≤ m.partitions.entrySize :=
    (forall_length_iff (· ≤ m.partitions.entrySize) h.entries_spec.1).mpr
      fun p hp => length_le_of_mem_entries h.base_eq hp
  have hexts : ∀ e ∈ ((planned d m).modify idx (· ++ [newExt])).flatten,
      e.length ≤ m.extents.entrySize := by
    intro e he
    rcases mem_flatten_modify he with he | rfl
    · obtain ⟨lst, hlst, he⟩ := List.mem_flatten.mp he
      obtain ⟨p, -, rfl⟩ := List.mem_map.mp hlst
      exact length_le_of_mem_entries h.base_eq (List.mem_of_mem_drop (List.mem_of_mem_take he))
    · exact h.length_newExt.le
  have hP := length_flatten_le hparts
  have hE := length_flatten_le hexts
  have hG : (tableBlob d m m.groups).length ≤ m.groups.numEntries * m.groups.entrySize := by
    rw [tableBlob_eq_window h.base_eq, length_window]
    omega
  have hD : (tableBlob d m m.devices).length ≤ m.devices.numEntries * m.devices.entrySize := by
    rw [tableBlob_eq_window h.base_eq, length_window]
    omega
  have htables := congrArg List.length h.rebuilt.tables_eq
  simp only [List.length_append] at htables
  have hG' : m.groups.numEntries * m.groups.entrySize ≤ (tableBlob d m m.groups).length := by
    omega
  have hD' : m.devices.numEntries * m.devices.entrySize ≤ (tableBlob d m m.devices).length := by
    omega
  exact ⟨h.entries_full.mp (forall_length_of_flatten hparts (by omega)),
    h.extents_full.mp (forall_length_of_flatten hexts (by omega)),
    hG.antisymm hG', hD.antisymm hD'⟩

/-- The target in a grown copy is as large as was asked for. -/
theorem Regrown.target_grown
    (h : Regrown sha d base m target newSize blob idx p newExt parts' hdr tables)
    {region : Bytes} {m' : Metadata}
    (hcontent : contentOf region m' = (contentOf d m).grow idx newExt) :
    ∃ q, indexOf target (entries region m' m'.partitions) = some idx ∧
      (logicalPartitions region m')[idx]? = some q ∧ ceilSectors newSize ≤ q.sectors := by
  refine ⟨PartContent.decode { p with extents := p.extents ++ [newExt] }, ?_, ?_, ?_⟩
  · rw [indexOf_eq_index, hcontent, Content.index, names_grow]
    exact h.index_eq
  · rw [logicalPartitions_eq_decode, hcontent, Content.grow, List.getElem?_map,
      List.getElem?_modify, h.entry_eq]
    simp
  · rw [sectors_append]
    exact h.newExt_sectors

/-- **When a grown copy is intact**: exactly when no entry of the old one was cut short. -/
theorem grownCopy_iff (hparse : parseMetadata d base = .ok (some m))
    (hb : patchSlot sha d base target newSize = .ok (some blob)) (hsize : blob.length ≤ maxSize) :
    (∃ m', GrownCopy sha (padded maxSize blob) target newSize m') ↔ (contentOf d m).Whole := by
  obtain ⟨idx, p, newExt, parts', hdr, tables, h⟩ := patchSlot_regrown hparse hb
  have hbuilt := h.rebuilt
  have hparsed := hbuilt.parsed (List.replicate (maxSize - blob.length) 0)
  constructor
  · rintro ⟨m', hgrown⟩
    obtain rfl := Option.some.inj (Except.ok.inj (hparsed.symm.trans hgrown.parsed))
    refine h.whole_of_sealed ?_
    have hdevices := hgrown.tables_sealed _
      (List.mem_cons_of_mem _ (List.mem_cons_of_mem _ (List.mem_cons_of_mem _ List.mem_cons_self)))
    exact hdevices
  · intro hwhole
    have hcontent := h.content_eq hwhole (List.replicate (maxSize - blob.length) 0)
    rw [copyContent_of_parse hparsed, Option.some.injEq] at hcontent
    obtain ⟨q, hindex, hq, hlarge⟩ := h.target_grown hcontent
    have hP := length_flatten_of_forall (h.entries_full.mpr hwhole.parts)
    have hE := length_flatten_of_forall (h.extents_full.mpr hwhole.extents)
    have hG : (tableBlob d m m.groups).length = m.groups.numEntries * m.groups.entrySize :=
      hwhole.groups
    have hD : (tableBlob d m m.devices).length = m.devices.numEntries * m.devices.entrySize :=
      hwhole.devices
    have htables := congrArg List.length hbuilt.tables_eq
    have hblob := congrArg List.length hbuilt.blob_eq
    simp only [List.length_append, hP, hE, hG, hD, hbuilt.length_hdr] at htables hblob
    refine ⟨_, hparsed, ?_, ?_, ?_, ?_, idx, q, hindex, hq, hlarge⟩
    · rw [length_padded hsize]
      change m.hdrSize + tables.length ≤ maxSize
      omega
    · simp only [List.forall_mem_cons, rebuiltMetadata]
      refine ⟨?_, ?_, ?_, ?_, fun _ hx => absurd hx List.not_mem_nil⟩ <;> omega
    · exact (hbuilt.checksums_eq _).1
    · exact (hbuilt.checksums_eq _).2

end Grown

end LpResize

end PalmaEos
