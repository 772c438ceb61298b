import PalmaEos.BootPatchers

/-!
# What the writer writes, the walks read

`cpio_entry` pads relative to its own record, and the walks align absolute offsets; the two agree
because every record starts at a multiple of four. `visits` is the walk of `patch-boot-overlayrc.py`
with nothing kept: the records it passes, and where. What that walk keeps and what `read_member`
finds are functions of the records passed (`walk_eq_visits`, `readMember_of_visits`).

## Main results

* `memberAt_entry` — one record, read where it was written
* `visits_archive` — the records passed are the members written, whatever follows the trailer
* `writer_readers_agree` — the round trip
-/

namespace PalmaEos

namespace Cpio

/-- A member to be written, small enough for the fields of a header. -/
structure Entry where
  name : Text
  data : Bytes
  mode : ℕ
  name_lt : (Text.encode name).length + 1 < 16 ^ 8
  data_lt : data.length < 16 ^ 8
  mode_lt : mode < 16 ^ 8

def Entry.bytes (e : Entry) : Bytes := cpioEntry e.name e.data e.mode

def Entry.trailer : Entry := ⟨TRAILER, [], 0, by decide, by decide, by decide⟩

/-- The records of the members. -/
def entryBytes (es : List Entry) : Bytes := es.flatMap Entry.bytes

/-- The records of the members, the trailer, and what follows. -/
def archiveBytes (es : List Entry) (rest : Bytes) : Bytes :=
  entryBytes es ++ (Entry.trailer.bytes ++ rest)

/-! ### The layout of a record -/

section Layout

/-- The name with its closing zero. -/
def Entry.nameSize (e : Entry) : ℕ := (Text.encode e.name).length + 1

/-- The numbers of the header. -/
def Entry.fields (e : Entry) : List ℕ :=
  [0, e.mode, 0, 0, 1, 0, e.data.length, 0, 0, 0, 0, e.nameSize, 0]

theorem length_pad4 (n : ℕ) : (pad4 n).length = (4 - n % 4) % 4 := List.length_replicate

theorem Entry.field_lt (e : Entry) : ∀ n ∈ e.fields, n < 16 ^ 8 := by
  have hname := e.name_lt
  have hdata := e.data_lt
  have hmode := e.mode_lt
  simp only [fields, nameSize, List.forall_mem_cons, List.not_mem_nil, false_implies,
    implies_true, and_true]
  omega

theorem Entry.length_field (e : Entry) : ∀ r ∈ e.fields.map Hex.format8, r.length = 8 := by
  intro r hr
  obtain ⟨n, hn, rfl⟩ := List.mem_map.mp hr
  exact Hex.length_format8 (e.field_lt n hn)

theorem Entry.length_fields (e : Entry) : ((e.fields.map Hex.format8).flatten).length = 104 :=
  length_flatten_of_forall e.length_field

/-- The parts of a record. -/
theorem Entry.bytes_eq (e : Entry) : e.bytes = CPIO_MAGIC ++ (e.fields.map Hex.format8).flatten ++
    (Text.encode e.name ++ [0] ++ (pad4 (110 + e.nameSize) ++ (e.data ++ pad4 e.data.length))) := by
  have hlength := e.length_fields
  have hmagic : CPIO_MAGIC.length = 6 := rfl
  have hhead : CPIO_MAGIC ++ Hex.format8 0 ++ Hex.format8 e.mode ++ Hex.format8 0 ++
      Hex.format8 0 ++ Hex.format8 1 ++ Hex.format8 0 ++ Hex.format8 e.data.length ++
      (List.replicate 4 (Hex.format8 0)).flatten ++
      Hex.format8 (Text.encode e.name ++ [0]).length ++ Hex.format8 0
      = CPIO_MAGIC ++ (e.fields.map Hex.format8).flatten := by
    simp [fields, nameSize, List.replicate_succ]
  rw [bytes, cpioEntry, hhead]
  simp only [List.length_append, hlength, hmagic, nameSize, List.append_assoc,
    List.length_singleton, ← Nat.add_assoc, Nat.reduceAdd]

theorem Entry.length_bytes (e : Entry) :
    e.bytes.length = Newc.recordSize e.data.length e.nameSize := by
  have hmagic : CPIO_MAGIC.length = 6 := rfl
  rw [bytes_eq]
  simp only [List.length_append, e.length_fields, hmagic, length_pad4, List.length_singleton]
  rw [← nameSize, Newc.recordSize, Newc.dataOffset, Newc.align4_add (Newc.align4_mod _),
    Newc.align4, Newc.align4]
  omega

/-- A record takes at least its header and its name, and ends at a multiple of four. -/
theorem Entry.length_bytes_mod (e : Entry) :
    110 + e.nameSize ≤ e.bytes.length ∧ e.bytes.length % 4 = 0 := by
  have hsize := Newc.header_le_recordSize e.data.length e.nameSize
  rw [length_bytes]
  exact ⟨by omega, Newc.align4_mod _⟩

variable (e : Entry) (tail : Bytes)

theorem Entry.window_magic : window (e.bytes ++ tail) 0 6 = CPIO_MAGIC := by
  rw [e.bytes_eq, List.append_assoc, List.append_assoc]
  exact window_of_parts (List.nil_append _).symm rfl

/-- A number of the header. -/
theorem Entry.window_field {i : ℕ} {n : ℕ} (h : e.fields[i]? = some n) :
    window (e.bytes ++ tail) (6 + i * 8) 8 = Hex.format8 n := by
  have htable := records_flatten CPIO_MAGIC
    (Text.encode e.name ++ [0] ++ (pad4 (110 + e.nameSize) ++ (e.data ++ pad4 e.data.length)) ++
      tail) e.length_field
  have hget := congrArg (·[i]?) htable
  rw [← List.append_assoc, ← e.bytes_eq] at hget
  have hi : i < e.fields.length := (List.getElem?_eq_some_iff.mp h).1
  simp only [records, List.length_map, List.getElem?_map, h, List.getElem?_range hi,
    Option.map_some, Option.some.injEq] at hget
  exact hget

/-- The name, with its closing zero. -/
theorem Entry.window_name :
    window (e.bytes ++ tail) 110 e.nameSize = Text.encode e.name ++ [0] := by
  have hlength : e.nameSize = (Text.encode e.name ++ [0]).length := by
    rw [nameSize, List.length_append, List.length_singleton]
  have hsplit : e.bytes ++ tail = (CPIO_MAGIC ++ (e.fields.map Hex.format8).flatten) ++
      ((Text.encode e.name ++ [0]) ++
        (pad4 (110 + e.nameSize) ++ (e.data ++ pad4 e.data.length) ++ tail)) := by
    rw [e.bytes_eq]
    simp only [List.append_assoc]
  rw [hlength]
  refine window_of_parts hsplit ?_
  rw [List.length_append, e.length_fields]
  rfl

theorem Entry.window_name_text :
    window (e.bytes ++ tail) 110 (e.nameSize - 1) = Text.encode e.name := by
  rw [window_shorter (e.window_name tail) (Nat.sub_le _ _), nameSize, Nat.add_sub_cancel,
    List.take_left]

theorem Entry.window_data :
    window (e.bytes ++ tail) (Newc.dataOffset e.nameSize) e.data.length = e.data := by
  have hmagic : CPIO_MAGIC.length = 6 := rfl
  have hsplit : e.bytes ++ tail = (CPIO_MAGIC ++ (e.fields.map Hex.format8).flatten ++
      (Text.encode e.name ++ [0] ++ pad4 (110 + e.nameSize))) ++
        (e.data ++ (pad4 e.data.length ++ tail)) := by
    rw [e.bytes_eq]
    simp only [List.append_assoc]
  refine window_of_parts hsplit ?_
  simp only [List.length_append, e.length_fields, hmagic, length_pad4, List.length_singleton]
  rw [Newc.dataOffset, Newc.align4, nameSize]
  omega

end Layout

/-! ### Reading a record -/

/-- What the walks make of the record of `e` at `off`. -/
def Entry.member (e : Entry) (off : ℕ) : Member where
  name := e.name
  size := e.data.length
  start := (off + Newc.dataOffset e.nameSize : ℕ)
  next := (off + e.bytes.length : ℕ)

/-- The record of a member, read where it was written. -/
theorem memberAt_entry {cpio tail : Bytes} {off : ℕ} {e : Entry}
    (h : cpio.drop off = e.bytes ++ tail) (hoff : off % 4 = 0) :
    off + 110 ≤ cpio.length ∧ pySlice cpio off (off + 6) = CPIO_MAGIC ∧
      memberAt cpio off = some (e.member off) ∧
      pySlice cpio (e.member off).start ((e.member off).start + (e.member off).size) = e.data ∧
      pySlice cpio off (e.member off).next = e.bytes := by
  have hlength := congrArg List.length h
  have hhead := e.length_bytes_mod.1
  rw [List.length_drop, List.length_append] at hlength
  have hnumber : ∀ (i n : ℕ), e.fields[i]? = some n →
      Hex.pyInt (window (cpio.drop off) (6 + i * 8) 8) = some (n : ℤ) := by
    intro i n hn
    rw [h, e.window_field tail hn, Hex.pyInt_of_isHex _ (Hex.isHex_format8 n), Hex.value_format8]
    refine List.ne_nil_of_length_pos ?_
    rw [Hex.length_format8 (e.field_lt n (List.mem_of_getElem? hn))]
    decide
  have hpos : 0 < e.nameSize := Nat.succ_pos _
  have hm := memberAt_eq hoff hpos (hnumber 6 e.data.length rfl) (hnumber 11 e.nameSize rfl)
  rw [← e.length_bytes, h, e.window_name_text, Text.decode_encode] at hm
  refine ⟨by omega, ?_, hm, ?_, ?_⟩
  · rw [pySlice_magic, h, e.window_magic]
  · have hslice := pySlice_drop cpio off
      (Nat.le_add_right (Newc.dataOffset e.nameSize) e.data.length)
    rw [Nat.add_sub_cancel_left, ← Nat.add_assoc, h, e.window_data] at hslice
    rw [Entry.member]
    push_cast at hslice ⊢
    exact hslice
  · have hslice := pySlice_drop cpio off (Nat.zero_le e.bytes.length)
    rw [Nat.sub_zero, Nat.add_zero, h, window_append_left (by omega), window_zero_length] at hslice
    exact hslice

/-! ### Loading a record -/

section Load

variable (e : Entry) (tail : Bytes)

/-- What the loader makes of the record of `e`. -/
def Entry.toRec : Newc.Rec where
  header i := e.fields[(i : ℕ)]?.getD 0
  name := Text.encode e.name
  data := e.data

/-- The loader reads the record of a member whose name has no zero byte. -/
theorem readRecord_entry (hname : 0 ∉ Text.encode e.name) :
    Newc.readRecord (e.bytes ++ tail) = some (e.toRec, e.bytes.length) := by
  have hfield : ∀ i n, e.fields[i]? = some n → Newc.field (e.bytes ++ tail) i = n := by
    intro i n hn
    rw [Newc.field, e.window_field tail hn, Hex.value_format8]
  have hsize : Newc.field (e.bytes ++ tail) 6 = e.data.length := hfield 6 _ rfl
  have hnsz : Newc.field (e.bytes ++ tail) 11 = e.nameSize := hfield 11 _ rfl
  have hzero : (e.bytes ++ tail)[110 + (e.nameSize - 1)]? = some 0 := by
    have hget := congrArg (·[e.nameSize - 1]?) (e.window_name tail)
    have hlast : (Text.encode e.name ++ [0])[e.nameSize - 1]? = some 0 :=
      List.getElem?_concat_length
    have hlt : e.nameSize - 1 < e.nameSize := Nat.lt_succ_self _
    rw [getElem?_window, if_pos hlt] at hget
    exact hget.trans hlast
  have hhex : window (e.bytes ++ tail) 6 104 = (e.fields.map Hex.format8).flatten := by
    rw [← e.length_fields, e.bytes_eq]
    simp only [List.append_assoc]
    exact window_of_parts rfl rfl
  have hheader : (fun i : Fin 13 => Newc.field (e.bytes ++ tail) i) = e.toRec.header := by
    funext i
    have hi : (i : ℕ) < e.fields.length := i.2
    refine hfield i (e.fields[(i : ℕ)]?.getD 0) ?_
    rw [List.getElem?_eq_getElem hi, Option.getD_some]
  refine Newc.readRecord_eq_some.mpr ⟨⟨?_, e.window_magic tail, ?_, ?_, ?_, ?_⟩, ?_, ?_⟩
  · rw [hsize, hnsz, ← e.length_bytes, List.length_append]
    omega
  · rw [hhex]
    intro b hb
    obtain ⟨r, hr, hbr⟩ := List.mem_flatten.mp hb
    obtain ⟨n, -, rfl⟩ := List.mem_map.mp hr
    exact Hex.isHex_format8 n b hbr
  · rw [hnsz]
    exact Nat.succ_pos _
  · rw [hnsz, e.window_name_text]
    exact hname
  · rw [hnsz, hzero]
  · rw [hheader, hnsz, hsize, e.window_name_text, e.window_data]
    rfl
  · rw [hsize, hnsz, e.length_bytes]

/-- The loader reads the members, and what follows the trailer. -/
theorem loads_entries {es : List Entry} {rest : Bytes} {rs : List Newc.Rec}
    (hnames : ∀ e ∈ es, e.name ≠ TRAILER ∧ 0 ∉ Text.encode e.name)
    (hrest : Newc.Loads rest rs) :
    Newc.Loads (archiveBytes es rest) (es.map Entry.toRec ++ rs) := by
  have htrailer : Text.encode TRAILER = Newc.TRAILER := by decide
  induction es with
  | nil =>
    have hload := Newc.Loads.cons (readRecord_entry Entry.trailer rest (by decide)) hrest
    rwa [Newc.Rec.onto_of_trailer htrailer] at hload
  | cons e es ih =>
    rw [List.forall_mem_cons] at hnames
    have hne : e.toRec.name ≠ Newc.TRAILER := by
      rw [← htrailer]
      exact fun h => hnames.1.1 (Text.encode_inj.mp h)
    rw [archiveBytes, entryBytes, List.flatMap_cons, List.append_assoc]
    have hload := Newc.Loads.cons (readRecord_entry e _ hnames.1.2) (ih hnames.2)
    rwa [Newc.Rec.onto_of_ne hne] at hload

end Load

/-! ### The records passed -/

/-- The loop of `patch-boot-overlayrc.py` with nothing kept: the records that it passes, with their
offsets. -/
def visits (cpio : Bytes) : ℕ → ℤ → Except Fault (List (ℤ × Member))
  | 0, _ => .error .running
  | fuel + 1, off =>
    if off + 110 ≤ cpio.length then
      if pySlice cpio off (off + 6) ≠ CPIO_MAGIC then .ok []
      else match memberAt cpio off with
        | none => .error .value
        | some m =>
          if m.name = TRAILER then .ok []
          else (visits cpio fuel m.next).map ((off, m) :: ·)
    else .ok []

/-- The bytes of a record that is passed. -/
def visitBytes (cpio : Bytes) (v : ℤ × Member) : Bytes := pySlice cpio v.1 v.2.next

section Visits

variable {cpio rest : Bytes} {es : List Entry}

/-- The loop keeps the bytes of the records that it passes, less the keys. -/
theorem walk_eq_visits (fuel : ℕ) (off : ℤ) (kept : Bytes) : OverlayRc.walk cpio fuel off kept
    = (visits cpio fuel off).map fun vs =>
      kept ++ (vs.filter fun v => v.2.name ∉ OverlayRc.DROP).flatMap (visitBytes cpio) := by
  induction fuel generalizing off kept with
  | zero => rfl
  | succ fuel ih =>
    have hend : Except.ok kept = (Except.ok [] : Except Fault (List (ℤ × Member))).map fun vs =>
        kept ++ (vs.filter fun v => v.2.name ∉ OverlayRc.DROP).flatMap (visitBytes cpio) :=
      congrArg Except.ok (List.append_nil kept).symm
    rw [OverlayRc.walk, visits]
    split_ifs with hroom hmagic
    · exact hend
    · rcases memberAt cpio off with _ | m
      · rfl
      · dsimp only
        split_ifs with htrailer hdrop
        · exact hend
        all_goals
          rw [ih]
          rcases visits cpio fuel m.next with err | vs
          · rfl
          dsimp only [Except.map]
        · rw [List.filter_cons_of_neg (by simpa using hdrop)]
        · rw [List.filter_cons_of_pos (by simpa using hdrop), List.flatMap_cons, List.append_assoc]
          rfl
    · exact hend

/-- `read_member` finds the first of the records passed that has the wanted name. -/
theorem readMember_of_visits {fuel : ℕ} {off : ℤ} {vs : List (ℤ × Member)} (want : Text)
    (h : visits cpio fuel off = .ok vs) : readMemberFrom cpio want fuel off
      = .ok ((vs.find? fun v => v.2.name = want).map fun v =>
        pySlice cpio v.2.start (v.2.start + v.2.size)) := by
  induction fuel generalizing off vs with
  | zero => cases h
  | succ fuel ih =>
    rw [visits] at h
    rw [readMemberFrom]
    split_ifs at h ⊢ with hroom hmagic
    · obtain rfl := Except.ok.inj h
      rfl
    · rcases hm : memberAt cpio off with _ | m
      · rw [hm] at h
        cases h
      · rw [hm] at h
        dsimp only at h ⊢
        by_cases htrailer : m.name = TRAILER
        · rw [if_pos htrailer] at h ⊢
          obtain rfl := Except.ok.inj h
          rfl
        · rw [if_neg htrailer] at h ⊢
          rcases hrest : visits cpio fuel m.next with err | vs'
          · rw [hrest] at h
            cases h
          · rw [hrest] at h
            obtain rfl := Except.ok.inj h
            by_cases hwant : m.name = want
            · rw [if_pos hwant, List.find?_cons_of_pos (by simpa using hwant)]
              rfl
            · rw [if_neg hwant, List.find?_cons_of_neg (by simpa using hwant), ih hrest]
    · obtain rfl := Except.ok.inj h
      rfl

/-- The members of an archive, as the loop passes them from `off` on. -/
def layout : ℕ → List Entry → List (ℤ × Member)
  | _, [] => []
  | off, e :: es => ((off : ℤ), e.member off) :: layout (off + e.bytes.length) es

/-- **The records passed are the members written**, whatever follows the trailer; with the data that
is read for each, and its bytes. -/
theorem visits_archive (cpio : Bytes) (off : ℕ) {fuel : ℕ} (hnames : ∀ e ∈ es, e.name ≠ TRAILER)
    (h : cpio.drop off = entryBytes es ++ (Entry.trailer.bytes ++ rest)) (hoff : off % 4 = 0)
    (hfuel : es.length < fuel) :
    visits cpio fuel off = .ok (layout off es) ∧
      (layout off es).map (visitBytes cpio) = es.map Entry.bytes ∧
      (layout off es).map (fun v => (v.2.name, pySlice cpio v.2.start (v.2.start + v.2.size)))
        = es.map fun e => (e.name, e.data) := by
  induction es generalizing off fuel with
  | nil =>
    obtain ⟨fuel, rfl⟩ : ∃ m, fuel = m + 1 := ⟨fuel - 1, by simp at hfuel; omega⟩
    obtain ⟨hroom, hmagic, hm, -⟩ := memberAt_entry h hoff
    refine ⟨?_, rfl, rfl⟩
    rw [visits, if_pos (by omega), if_neg (not_not.mpr hmagic), hm]
    exact if_pos rfl
  | cons e es ih =>
    obtain ⟨fuel, rfl⟩ : ∃ m, fuel = m + 1 := ⟨fuel - 1, by simp at hfuel; omega⟩
    rw [List.forall_mem_cons] at hnames
    rw [List.length_cons] at hfuel
    rw [entryBytes, List.flatMap_cons, ← entryBytes, List.append_assoc] at h
    obtain ⟨hroom, hmagic, hm, hdata, hbytes⟩ := memberAt_entry h hoff
    have hrest : cpio.drop (off + e.bytes.length)
        = entryBytes es ++ (Entry.trailer.bytes ++ rest) := by
      rw [← List.drop_drop, h, List.drop_left]
    have hmod := e.length_bytes_mod.2
    obtain ⟨hvisits, hpieces, hcontent⟩ :=
      ih (off + e.bytes.length) hnames.2 hrest (by omega) (Nat.lt_of_succ_lt_succ hfuel)
    refine ⟨?_, ?_, ?_⟩
    · rw [visits, if_pos (by omega), if_neg (not_not.mpr hmagic), hm]
      exact (if_neg hnames.1).trans (congrArg (Except.map _) hvisits)
    · rw [layout, List.map_cons, List.map_cons, hpieces, visitBytes, hbytes]
    · rw [layout, List.map_cons, List.map_cons, hcontent, hdata]
      rfl

theorem map_layout (off : ℕ) (es : List Entry) :
    (layout off es).map (fun v => (v.2.name, v.2.size))
      = es.map fun e => (e.name, (e.data.length : ℤ)) := by
  induction es generalizing off with
  | nil => rfl
  | cons e es ih =>
    rw [layout, List.map_cons, List.map_cons, ih]
    rfl

/-- Looking for a name, before and after the records are taken apart. -/
theorem find?_map_pair {α : Type*} (l : List α) (name : α → Text) (data : α → Bytes) (want : Text) :
    (l.find? fun v => name v = want).map data
      = ((l.map fun v => (name v, data v)).find? fun v => v.1 = want).map Prod.snd := by
  rw [List.find?_map, Option.map_map]
  rfl

/-- **The writer and the readers agree.** Let the records of the members, the trailer, and any bytes
stand one behind the other. The loop of `patch-boot-overlayrc.py` passes exactly the records of the
members, in order, with their names and sizes, and their bytes join back to what stands before the
trailer; it keeps those that are not keys. `read_member` returns the data of the first member of the
wanted name, or nothing when there is none. -/
theorem writer_readers_agree (es : List Entry) (rest : Bytes)
    (hnames : ∀ e ∈ es, e.name ≠ TRAILER) :
    ∃ vs : List (ℤ × Member),
      (∀ fuel, es.length < fuel → visits (archiveBytes es rest) fuel 0 = .ok vs ∧
        OverlayRc.walk (archiveBytes es rest) fuel 0 []
          = .ok ((vs.filter fun v => v.2.name ∉ OverlayRc.DROP).flatMap
            (visitBytes (archiveBytes es rest)))) ∧
      vs.map (fun v => (v.2.name, v.2.size)) = es.map (fun e => (e.name, (e.data.length : ℤ))) ∧
      vs.flatMap (visitBytes (archiveBytes es rest)) = entryBytes es ∧
      ∀ fuel, es.length < fuel → ∀ want, readMember fuel (archiveBytes es rest) want
        = .ok ((es.find? (·.name = want)).map Entry.data) := by
  have harchive := fun fuel (hfuel : es.length < fuel) =>
    visits_archive (archiveBytes es rest) 0 hnames rfl rfl hfuel
  simp only [Nat.cast_zero] at harchive
  refine ⟨layout 0 es, fun fuel hfuel => ?_, map_layout 0 es, ?_, fun fuel hfuel want => ?_⟩
  · have hvisits := (harchive fuel hfuel).1
    refine ⟨hvisits, ?_⟩
    exact (walk_eq_visits fuel 0 []).trans (congrArg (Except.map _) hvisits)
  · have hpieces := (harchive (es.length + 1) (Nat.lt_succ_self _)).2.1
    rw [List.flatMap, hpieces, entryBytes, List.flatMap]
  · obtain ⟨hvisits, -, hcontent⟩ := harchive fuel hfuel
    rw [readMember, readMember_of_visits want hvisits, find?_map_pair, hcontent, ← find?_map_pair]

def aEntry : Entry := ⟨"a".toList, [1], 0o100644, by decide, by decide, by decide⟩

/-- Two members of one name; the trailer of another archive follows. -/
theorem writer_readers_agree_two :
    readMember 3 (archiveBytes [aEntry, aEntry] CPIO_MAGIC) "a".toList = .ok (some [1]) := by
  obtain ⟨-, -, -, -, hread⟩ := writer_readers_agree [aEntry, aEntry] CPIO_MAGIC (by decide)
  exact hread 3 (by decide) "a".toList

end Visits

end Cpio

end PalmaEos
