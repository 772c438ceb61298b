import PalmaEos.LpResizeContent

/-!
# Tidy copies

A copy of the metadata is `Tidy` when nothing in it is left to choose: tables and extents stand one
behind the other, both checksums are right and zeros follow. Hence its bytes are determined by what
it says.

## Main results

* `Tidy.window_eq` — tidy copies that say the same are the same
* `Regrown.tidy` — a copy that grew is tidy
-/

namespace PalmaEos

namespace LpResize

open LpUnpack (Descriptor)

/-- Where a table ends, from the end of the header. -/
def tableEnd (t : Descriptor) : ℕ := t.offset + t.numEntries * t.entrySize

/-- **A tidy copy** in the `size` bytes at `base`: from the end of the header on the four tables
stand one behind the other, and so do the extents of the partitions in their table, which holds no
others; both checksums are right, and only zeros follow. -/
structure Tidy (sha : Sha256) (d : Bytes) (base size : ℕ) (m : Metadata) : Prop where
  parsed : parseMetadata d base = .ok (some m)
  inside : base + size ≤ d.length
  hdrSize : 128 ≤ m.hdrSize
  entrySize : 48 ≤ m.partitions.entrySize
  partitions_first : m.partitions.offset = 0
  extents_next : m.extents.offset = tableEnd m.partitions
  groups_next : m.groups.offset = tableEnd m.extents
  devices_next : m.devices.offset = tableEnd m.groups
  tables_end : m.tablesSize = tableEnd m.devices
  room : m.hdrSize + m.tablesSize ≤ size
  ranges : ∃ ns, (entries d m m.partitions).map rangeOf = consecutive 0 ns ∧
    ns.sum = m.extents.numEntries
  header_checksum : window d (base + H_HEADER_CSUM) 32
    = sha.digest (splice (window d base m.hdrSize) H_HEADER_CSUM (List.replicate 32 0))
  tables_checksum : window d (base + H_TABLES_CSUM) 32
    = sha.digest (window d (base + m.hdrSize) m.tablesSize)
  zeros : window d (base + (m.hdrSize + m.tablesSize)) (size - (m.hdrSize + m.tablesSize))
    = List.replicate (size - (m.hdrSize + m.tablesSize)) 0

section Tidy

variable {sha : Sha256} {d d' : Bytes} {base base' size : ℕ} {m m' : Metadata}

theorem Tidy.base_eq (h : Tidy sha d base size m) : m.base = base := base_of_parseMetadata h.parsed

theorem Tidy.eq_parsed (h : Tidy sha d base size m) : leAt 4 d base = HEADER_MAGIC ∧
    m = ⟨base, (leAt 2 d (base + 4), leAt 2 d (base + 6)), leAt 4 d (base + 8),
      leAt 4 d (base + H_TABLES_SIZE), descAt d (base + H_PARTITIONS), descAt d (base + H_EXTENTS),
      descAt d (base + H_GROUPS), descAt d (base + H_DEVICES)⟩ :=
  eq_of_parseMetadata (by have := h.inside; have := h.hdrSize; have := h.room; omega) h.parsed

/-- The ranges of a tidy copy are determined by how many extents each partition has. -/
theorem Tidy.ranges_eq (h : Tidy sha d base size m) :
    (entries d m m.partitions).map rangeOf
      = consecutive 0 ((contentOf d m).parts.map fun p => p.extents.length) := by
  obtain ⟨ns, hranges, hsum⟩ := h.ranges
  have hlen : (entries d m m.extents).length = m.extents.numEntries := by
    rw [entries, List.length_map, List.length_range]
  suffices hns : (contentOf d m).parts.map (fun p => p.extents.length) = ns by rw [hns, hranges]
  calc (contentOf d m).parts.map (fun p => p.extents.length)
      = ((entries d m m.partitions).map rangeOf).map
          fun r => (window (entries d m m.extents) r.1 r.2).length := by
        rw [contentOf, List.map_map, List.map_map]
        rfl
    _ = (consecutive 0 ns).map Prod.snd := by
        rw [hranges]
        refine List.map_congr_left fun r hr => length_window_of_le ?_
        have := consecutive_le hr
        omega
    _ = ns := map_snd_consecutive 0 ns

/-- The extents table of a tidy copy holds the extents of the partitions, in their order. -/
theorem Tidy.extents_eq (h : Tidy sha d base size m) :
    entries d m m.extents = ((contentOf d m).parts.map PartContent.extents).flatten := by
  obtain ⟨ns, hranges, hsum⟩ := h.ranges
  have hlen : (entries d m m.extents).length = ns.sum := by
    rw [entries, List.length_map, List.length_range, hsum]
  have hparts : (contentOf d m).parts.map PartContent.extents
      = ((entries d m m.partitions).map rangeOf).map
          fun r => window (entries d m m.extents) r.1 r.2 := by
    rw [contentOf, List.map_map, List.map_map]
    rfl
  rw [hparts, hranges, flatten_consecutive, ← hlen, window_zero_length]

/-- Entries that differ at most in nothing but their index range, and not in that, are the same. -/
theorem entries_unique : ∀ {ps qs : List Bytes}, (∀ p ∈ ps, 48 ≤ p.length) →
    (∀ q ∈ qs, 48 ≤ q.length) →
    ps.map (fun p => (p.take 40, p.drop 48)) = qs.map (fun p => (p.take 40, p.drop 48)) →
    ps.map rangeOf = qs.map rangeOf → ps = qs
  | [], [], _, _, _, _ => rfl
  | p :: ps, q :: qs, hp, hq, hkept, hranges => by
    rw [List.forall_mem_cons] at hp hq
    rw [List.map_cons, List.map_cons, List.cons.injEq, Prod.mk.injEq] at hkept
    rw [List.map_cons, List.map_cons, List.cons.injEq, rangeOf, rangeOf, Prod.mk.injEq] at hranges
    obtain ⟨⟨htake, hdrop⟩, hkept⟩ := hkept
    obtain ⟨⟨hfirst, hnum⟩, hranges⟩ := hranges
    have hrange : window p 40 (4 + 4) = window q 40 (4 + 4) :=
      window_add_congr (window_eq_of_leAt (by omega) (by omega) hfirst)
        (window_eq_of_leAt (by omega) (by omega) hnum)
    have hsplit : ∀ x : Bytes, x = x.take 40 ++ (window x 40 (4 + 4) ++ x.drop 48) := by
      intro x
      rw [window, show 48 = 40 + (4 + 4) from rfl, ← List.drop_drop, List.take_append_drop,
        List.take_append_drop]
    rw [hsplit p, hsplit q, htake, hrange, hdrop, entries_unique hp.2 hq.2 hkept hranges]

theorem Tidy.table_inside (h : Tidy sha d base size m) {t : Descriptor}
    (ht : tableEnd t ≤ m.tablesSize) : base + m.hdrSize + t.offset + t.numEntries * t.entrySize
      ≤ d.length := by
  have := h.inside
  have := h.room
  rw [tableEnd] at ht
  omega

/-- The entries of the partition table have room for their range. -/
theorem Tidy.long (h : Tidy sha d base size m) : ∀ p ∈ entries d m m.partitions, 48 ≤ p.length := by
  intro p hp
  rw [entries_eq_records h.base_eq] at hp
  have hends := h.table_inside (t := m.partitions) (by
    have := h.extents_next
    have := h.groups_next
    have := h.devices_next
    have := h.tables_end
    rw [tableEnd] at *
    omega)
  rw [length_of_mem_records hends hp]
  exact h.entrySize

/-- **The tables of a tidy copy** are the entries and the two copied tables, one after another. -/
theorem Tidy.tables_eq (h : Tidy sha d base size m) :
    window d (base + m.hdrSize) m.tablesSize
      = (entries d m m.partitions).flatten ++ (entries d m m.extents).flatten ++
        tableBlob d m m.groups ++ tableBlob d m m.devices := by
  rw [entries_eq_records h.base_eq, entries_eq_records h.base_eq, flatten_records, flatten_records,
    tableBlob_eq_window h.base_eq, tableBlob_eq_window h.base_eq, h.devices_next, h.groups_next,
    h.extents_next, h.tables_end]
  simp only [tableEnd, h.devices_next, h.groups_next, h.extents_next, h.partitions_first,
    Nat.add_zero, Nat.zero_add]
  rw [window_append_window, window_append_window, window_append_window]

/-- The header of a tidy copy with zeros for its checksum, in its parts. -/
theorem Tidy.zeroed_eq (h : Tidy sha d base size m) :
    splice (window d base m.hdrSize) H_HEADER_CSUM (List.replicate 32 0)
      = window d base 12 ++ List.replicate 32 0 ++ window d (base + 44) (m.hdrSize - 44) := by
  rw [splice, H_HEADER_CSUM, List.length_replicate, take_window _ (by have := h.hdrSize; omega),
    drop_window]

section Unique

variable (h : Tidy sha d base size m) (h' : Tidy sha d' base' size m')
  (hc : contentOf d m = contentOf d' m')

include h h' hc

/-- The header fields that the content has. -/
theorem Tidy.head_congr : window d base 12 = window d' base' 12 ∧ m.hdrSize = m'.hdrSize ∧
    window d (base + 128) (m.hdrSize - 128) = window d' (base' + 128) (m.hdrSize - 128) := by
  have hhead := congrArg Content.head hc
  have htail := congrArg Content.tail hc
  simp only [contentOf, header_eq_window h.base_eq, header_eq_window h'.base_eq] at hhead htail
  have h128 := h.hdrSize
  have h128' := h'.hdrSize
  rw [take_window _ (by omega), take_window _ (by omega)] at hhead
  have hsize : m.hdrSize = m'.hdrSize := by
    rw [h.eq_parsed.2, h'.eq_parsed.2]
    change leAt 4 d (base + 8) = leAt 4 d' (base' + 8)
    rw [← leAt_window (n := 12) (by omega), hhead, leAt_window (by omega)]
  rw [drop_window, drop_window, ← hsize] at htail
  exact ⟨hhead, hsize, htail⟩

/-- The tables. -/
theorem Tidy.entries_congr : entries d m m.partitions = entries d' m' m'.partitions ∧
    entries d m m.extents = entries d' m' m'.extents := by
  constructor
  · refine entries_unique h.long h'.long ?_ ?_
    · have hkept := congrArg (fun c => c.parts.map fun p => (p.before, p.after)) hc
      simp only [contentOf, List.map_map] at hkept
      exact hkept
    · rw [h.ranges_eq, h'.ranges_eq, hc]
  · rw [h.extents_eq, h'.extents_eq, hc]

/-- The descriptors. -/
theorem Tidy.descriptors_congr : m.partitions = m'.partitions ∧ m.extents = m'.extents ∧
    m.groups = m'.groups ∧ m.devices = m'.devices ∧ m.tablesSize = m'.tablesSize := by
  have hlen : ∀ (d : Bytes) (m : Metadata) (t : Descriptor),
      (entries d m t).length = t.numEntries := by
    intro d m t
    rw [entries, List.length_map, List.length_range]
  obtain ⟨hp, he⟩ := h.entries_congr h' hc
  have hpnum := congrArg List.length hp
  have henum := congrArg List.length he
  rw [hlen, hlen] at hpnum henum
  have hpsz : m.partitions.entrySize = m'.partitions.entrySize := congrArg Content.partSize hc
  have hesz : m.extents.entrySize = m'.extents.entrySize := congrArg Content.extentSize hc
  have hgroups := congrArg Content.groups hc
  have hdevices := congrArg Content.devices hc
  simp only [contentOf, Prod.mk.injEq] at hgroups hdevices
  have hdesc : ∀ t t' : Descriptor, t.offset = t'.offset → t.numEntries = t'.numEntries →
      t.entrySize = t'.entrySize → t = t' := by
    rintro ⟨_, _, _⟩ ⟨_, _, _⟩ rfl rfl rfl
    rfl
  have hP := hdesc m.partitions m'.partitions
    (h.partitions_first.trans h'.partitions_first.symm) hpnum hpsz
  have hE := hdesc m.extents m'.extents (by rw [h.extents_next, h'.extents_next, hP]) henum hesz
  have hG := hdesc m.groups m'.groups (by rw [h.groups_next, h'.groups_next, hE]) hgroups.1
    hgroups.2.1
  have hD := hdesc m.devices m'.devices (by rw [h.devices_next, h'.devices_next, hG]) hdevices.1
    hdevices.2.1
  exact ⟨hP, hE, hG, hD, by rw [h.tables_end, h'.tables_end, hD]⟩

theorem Tidy.tables_congr : window d (base + m.hdrSize) m.tablesSize
    = window d' (base' + m'.hdrSize) m'.tablesSize := by
  obtain ⟨hp, he⟩ := h.entries_congr h' hc
  have hgroups := congrArg Content.groups hc
  have hdevices := congrArg Content.devices hc
  simp only [contentOf, Prod.mk.injEq] at hgroups hdevices
  rw [h.tables_eq, h'.tables_eq, hp, he, hgroups.2.2, hdevices.2.2]

omit hc in
/-- A descriptor that is read alike stands there in the same bytes. -/
theorem Tidy.descBytes_congr {a : ℕ} (ha : a + 12 ≤ 128)
    (hdesc : descAt d (base + a) = descAt d' (base' + a)) :
    window d (base + a) 12 = window d' (base' + a) 12 := by
  have := h.inside
  have := h'.inside
  have := h.hdrSize
  have := h'.hdrSize
  have := h.room
  have := h'.room
  rw [descAt, descAt, Descriptor.mk.injEq] at hdesc
  obtain ⟨hoffset, hnum, hsize⟩ := hdesc
  exact window_add_congr (n := 8) (m := 4)
    (window_add_congr (n := 4) (m := 4) (window_eq_of_leAt (by omega) (by omega) hoffset)
      (window_eq_of_leAt (by omega) (by omega) hnum))
    (window_eq_of_leAt (by omega) (by omega) hsize)

/-- The header from the tables size on. -/
theorem Tidy.fields_congr :
    window d (base + 44) (m.hdrSize - 44) = window d' (base' + 44) (m.hdrSize - 44) := by
  obtain ⟨-, hsize, htail⟩ := h.head_congr h' hc
  obtain ⟨hP, hE, hG, hD, hT⟩ := h.descriptors_congr h' hc
  have hm := h.eq_parsed.2
  have hm' := h'.eq_parsed.2
  rw [hm, hm'] at hP hE hG hD hT
  have hinside := h.inside
  have hinside' := h'.inside
  have h128 := h.hdrSize
  have hroom := h.room
  have hroom' := h'.room
  have hsum : window d (base + 48) 32 = window d' (base' + 48) 32 := by
    have hseal := h.tables_checksum
    have hseal' := h'.tables_checksum
    rw [H_TABLES_CSUM] at hseal hseal'
    rw [hseal, hseal', h.tables_congr h' hc]
  have h48 := window_add_congr (n := 4) (m := 32)
    (window_eq_of_leAt (w := 4) (by rw [H_TABLES_SIZE]; omega) (by rw [H_TABLES_SIZE]; omega) hT)
    hsum
  have hdesc := window_add_congr (n := 36) (m := 12) h48
    (h.descBytes_congr h' (a := 80) (by decide) hP)
  have hdesc := window_add_congr (n := 48) (m := 12) hdesc
    (h.descBytes_congr h' (a := 92) (by decide) hE)
  have hdesc := window_add_congr (n := 60) (m := 12) hdesc
    (h.descBytes_congr h' (a := 104) (by decide) hG)
  have hdesc := window_add_congr (n := 72) (m := 12) hdesc
    (h.descBytes_congr h' (a := 116) (by decide) hD)
  have hall := window_add_congr (n := 84) (m := m.hdrSize - 128) hdesc htail
  rwa [show m.hdrSize - 44 = 84 + (m.hdrSize - 128) by omega]

/-- **Tidy copies that say the same are the same.** -/
theorem Tidy.window_eq : window d base size = window d' base' size := by
  obtain ⟨hhead, hsize, -⟩ := h.head_congr h' hc
  obtain ⟨-, -, -, -, hT⟩ := h.descriptors_congr h' hc
  have hfields := h.fields_congr h' hc
  have htables := h.tables_congr h' hc
  rw [← hsize, ← hT] at htables
  have h128 := h.hdrSize
  have hroom := h.room
  have hsum : window d (base + 12) 32 = window d' (base' + 12) 32 := by
    have hseal := h.header_checksum
    have hseal' := h'.header_checksum
    rw [h.zeroed_eq] at hseal
    rw [h'.zeroed_eq, ← hsize] at hseal'
    rw [H_HEADER_CSUM] at hseal hseal'
    rw [hseal, hseal', hhead, hfields]
  have hzeros : window d (base + (m.hdrSize + m.tablesSize)) (size - (m.hdrSize + m.tablesSize))
      = window d' (base' + (m.hdrSize + m.tablesSize)) (size - (m.hdrSize + m.tablesSize)) := by
    have hzeros' := h'.zeros
    rw [← hsize, ← hT] at hzeros'
    rw [h.zeros, hzeros']
  have hstart := window_add_congr (n := 12) (m := 32) hhead hsum
  have hhdr := window_add_congr (n := 44) (m := m.hdrSize - 44) hstart hfields
  rw [show 44 + (m.hdrSize - 44) = m.hdrSize by omega] at hhdr
  have hcopy := window_add_congr hhdr htables
  have hall := window_add_congr hcopy hzeros
  rwa [show m.hdrSize + m.tablesSize + (size - (m.hdrSize + m.tablesSize)) = size by omega] at hall

end Unique

/-- The header and the tables of a tidy copy lie inside it. -/
theorem Tidy.enclosed {blob : Bytes} (h : Tidy sha blob 0 blob.length m) : Enclosed blob m := by
  have hroom := h.room
  have hends := h.tables_end
  have hdevices := h.devices_next
  have hgroups := h.groups_next
  have hextents := h.extents_next
  refine ⟨h.parsed, h.hdrSize, by omega, ?_⟩
  simp only [List.forall_mem_cons]
  rw [tableEnd] at *
  refine ⟨?_, ?_, ?_, ?_, fun _ hx => absurd hx List.not_mem_nil⟩ <;> omega

/-- A tidy copy is tidy wherever it stands. -/
theorem Tidy.placed {blob image : Bytes} (h : Tidy sha blob 0 blob.length m)
    (hin : base + blob.length ≤ image.length) (hstands : window image base blob.length = blob) :
    Tidy sha image base blob.length (m.movedTo base) := by
  have hread : ∀ a n, a + n ≤ blob.length → window image (base + a) n = window blob (0 + a) n := by
    intro a n ha
    rw [← window_window ha, hstands, Nat.zero_add]
  have h128 := h.hdrSize
  have hroom := h.room
  have hhdr := hread 0 m.hdrSize (by omega)
  refine ⟨h.enclosed.parsed_placed hin hstands, hin, h.hdrSize, h.entrySize, h.partitions_first,
    h.extents_next, h.groups_next, h.devices_next, h.tables_end, h.room, ?_, ?_, ?_, ?_⟩
  · obtain ⟨ns, hranges, hsum⟩ := h.ranges
    refine ⟨ns, ?_, hsum⟩
    rw [← hranges]
    exact congrArg _ (h.enclosed.entries_placed hstands (t := m.partitions) (by simp))
  · rw [hread _ _ (by rw [H_HEADER_CSUM]; omega), h.header_checksum]
    exact congrArg (fun x => sha.digest (splice x H_HEADER_CSUM (List.replicate 32 0))) hhdr.symm
  · rw [hread _ _ (by rw [H_TABLES_CSUM]; omega), h.tables_checksum]
    exact congrArg sha.digest (hread m.hdrSize m.tablesSize h.room).symm
  · exact (hread (m.hdrSize + m.tablesSize) (blob.length - (m.hdrSize + m.tablesSize))
      (by omega)).trans h.zeros

end Tidy

/-- **A copy that grew is tidy**, with the zeros behind it. -/
theorem Regrown.tidy {sha : Sha256} {d blob newExt hdr tables : Bytes} {base idx maxSize : ℕ}
    {m : Metadata} {target : Text} {newSize : ℤ} {p : PartContent} {parts' : List Bytes}
    (h : Regrown sha d base m target newSize blob idx p newExt parts' hdr tables)
    (hwhole : (contentOf d m).Whole) (hsize : blob.length ≤ maxSize) :
    Tidy sha (padded maxSize blob) 0 maxSize
      (rebuiltMetadata m parts'.length ((planned d m).modify idx (· ++ [newExt])).flatten.length
        tables.length) := by
  have hbuilt := h.rebuilt
  have hfullP := h.entries_full.mpr hwhole.parts
  have hfullE := h.extents_full.mpr hwhole.extents
  have hP := length_flatten_of_forall hfullP
  have hE := length_flatten_of_forall hfullE
  have hG : (tableBlob d m m.groups).length = m.groups.numEntries * m.groups.entrySize :=
    hwhole.groups
  have hD : (tableBlob d m m.devices).length = m.devices.numEntries * m.devices.entrySize :=
    hwhole.devices
  have htables := congrArg List.length hbuilt.tables_eq
  have hblob := congrArg List.length hbuilt.blob_eq
  simp only [List.length_append, hP, hE, hG, hD, hbuilt.length_hdr] at htables hblob
  obtain ⟨hsame, hlong, hranges, -⟩ := reindex_spec []
    (by rw [List.length_modify, planned, List.length_map]) hbuilt.reindexed
  obtain ⟨hreadP, -⟩ := hbuilt.read hfullP hfullE hG hD
    (List.replicate (maxSize - blob.length) 0) rfl
  -- the target's entry shows that entries have room for their range
  have hentry : 48 ≤ m.partitions.entrySize := by
    have hmem := List.mem_of_getElem? h.entry_eq
    rw [contentOf] at hmem
    obtain ⟨raw, hraw, -⟩ := List.mem_map.mp hmem
    have hlen := (forall_length_iff (· = m.partitions.entrySize) hsame).mp hfullP raw hraw
    exact hlen ▸ hlong raw hraw
  refine ⟨hbuilt.parsed _, by rw [length_padded hsize, Nat.zero_add], hbuilt.hdrSize, hentry, rfl,
    ?_, rfl, rfl, htables, ?_, ⟨_, ?_, (List.length_flatten ..).symm⟩, ?_, ?_, ?_⟩
  · exact (Nat.zero_add _).symm
  · change m.hdrSize + tables.length ≤ maxSize
    omega
  · rw [padded, hreadP]
    exact hranges
  · rw [Nat.zero_add]
    exact (hbuilt.checksums_eq _).1
  · rw [Nat.zero_add, Nat.zero_add]
    exact (hbuilt.checksums_eq _).2
  · have hlen : m.hdrSize + tables.length = blob.length := by omega
    have hparts : padded maxSize blob
        = blob ++ (List.replicate (maxSize - blob.length) 0 ++ []) := by
      rw [List.append_nil, padded]
    have hbehind := window_of_parts hparts rfl
    rw [List.length_replicate] at hbehind
    change window (padded maxSize blob) (0 + (m.hdrSize + tables.length))
      (maxSize - (m.hdrSize + tables.length))
        = List.replicate (maxSize - (m.hdrSize + tables.length)) 0
    rw [hlen, Nat.zero_add, hbehind]

end LpResize

end PalmaEos
