import PalmaEos.Lib.Table
import PalmaEos.UnlockRuns

/-!
# The partition index of a backup

`edl rl` leaves a file `<partition>.bin` for each partition, in a directory for each LUN.
`edl-backup.sh` makes an index of them with `find`, `sed`, `awk` and `sort`, and the scripts of the
unlock procedure look a partition up in it with `awk`. This is that pipeline, on the text that runs
through it, and what follows for the files that are written to the device.

## Main results

* `index_names` — what is looked up in the index
* `writes_own_dump` — what sessions of the unlock procedure write
-/

namespace PalmaEos

namespace UnlockBootloader

open Script Table

/-! ### `edl-backup.sh` -/

/-- The lines of a text. -/
def lines (text : Bytes) : List Bytes := Fields.fields (· == 10) text

/-- `$NF` under `awk -F/`, which `find -name` looks at as well. -/
def baseName (path : Bytes) : Bytes := Fields.rest (· == 47) path

/-- `find . -type f -name '*.bin'`, where these are the paths of the files. -/
def findBin (dump : List Bytes) : Bytes :=
  unlines 10 ((dump.filter fun p => bytes ".bin" <:+ baseName p).map (bytes "./" ++ ·))

/-- `s|^\./||` -/
def stripDot (line : Bytes) : Bytes := if bytes "./" <+: line then line.drop 2 else line

/-- `sub(/\.bin$/, "", name)` -/
def dropBin (name : Bytes) : Bytes :=
  if bytes ".bin" <:+ name then name.take (name.length - 4) else name

/-- `{name=$NF; sub(/\.bin$/,"",name); print name"\t"$0}` -/
def entry (line : Bytes) : Bytes := dropBin (baseName line) ++ 9 :: line

/-- `find … | sed … | awk … | sort > partitions.idx`, where `sort` goes by the order `le`. -/
def partitionsIdx (le : Bytes → Bytes → Bool) (dump : List Bytes) : Bytes :=
  let found := findBin dump
  let stripped := unlines 10 ((lines found).map stripDot)
  let entries := unlines 10 ((lines stripped).map entry)
  unlines 10 ((lines entries).mergeSort le)

/-! ### Looking a partition up -/

/-- The columns of a line under `awk -F'\t'`. -/
def columns (line : Bytes) : List Bytes := line.splitOnP (· == 9)

/-- What some `awk` may take for a number: behind blanks and a sign a digit or a point, or `inf` or
`nan` in whatever case. -/
def mayBeNumber (s : Bytes) : Bool :=
  let s := s.dropWhile (· ∈ [9, 10, 11, 12, 13, 32])
  let s := if s.head? = some 43 ∨ s.head? = some 45 then s.tail else s
  let word := (s.take 3).map fun b => if 65 ≤ b ∧ b ≤ 90 then b + 32 else b
  s.head?.any (fun b => b = 46 ∨ 48 ≤ b ∧ b ≤ 57) || word == bytes "inf" || word == bytes "nan"

/-- The `awk` at hand: what `-v` makes of a value, and what `==` says of a column and such a value.
Escapes in the value are expanded, and two texts that look like numbers are compared as numbers. -/
structure Awk where
  assigned : Bytes → Bytes
  same : Bytes → Bytes → Bool
  assigned_eq : ∀ value, 92 ∉ value → assigned value = value
  same_eq : ∀ column value, mayBeNumber value = false → same column value = (column == value)

/-- A name that every `awk` takes as it is: it has no backslash and looks like no number. -/
structure PlainName (name : Bytes) : Prop where
  no_escape : 92 ∉ name
  no_number : mayBeNumber name = false

theorem PlainName.same {name : Bytes} (hname : PlainName name) (awk : Awk) (column : Bytes) :
    awk.same column (awk.assigned name) = (column == name) := by
  rw [awk.assigned_eq name hname.no_escape, awk.same_eq column name hname.no_number]

/-- `awk -v n="$name" -F'\t' '$1==n {print $2; exit}' "$IDX"` -/
def lookup (awk : Awk) (name idx : Bytes) : Bytes :=
  match (lines idx).find? fun line => awk.same ((columns line).headD []) (awk.assigned name) with
  | some line => (columns line).getD 1 [] ++ [10]
  | none => []

/-- A path as `find` prints it when it starts at `dir`. -/
def pathUnder (dir p : Bytes) : Bytes :=
  if bytes "/" <:+ dir then dir ++ p else dir ++ bytes "/" ++ p

/-- `find "$BACKUP_DIR" -type f -name "${name}.bin" | head -1` -/
def findNamed (dir name : Bytes) (dump : List Bytes) : Bytes :=
  let found := dump.filter fun p => baseName p == name ++ bytes ".bin"
  unlines 10 ((lines (unlines 10 (found.map (pathUnder dir)))).take 1)

/-- A path without the bytes that lines and columns are made with, and without NUL. -/
def Clean (p : Bytes) : Prop := ∀ b ∈ p, b ≠ 0 ∧ b ≠ 9 ∧ b ≠ 10

/-- A path of one line. -/
def OneLine (p : Bytes) : Prop := ∀ b ∈ p, b ≠ 0 ∧ b ≠ 10

section Index

variable {le : Bytes → Bytes → Bool} {dump dump' : List Bytes} {name p : Bytes} {awk : Awk}

theorem mem_of_mem_baseName {b : UInt8} (hb : b ∈ baseName p) : b ∈ p :=
  Fields.rest_suffix.subset hb

theorem mem_of_mem_dropBin {b : UInt8} (hb : b ∈ dropBin name) : b ∈ name := by
  rw [dropBin] at hb
  split_ifs at hb
  · exact List.mem_of_mem_take hb
  · exact hb

theorem stripDot_dot (p : Bytes) : stripDot (bytes "./" ++ p) = p := by
  rw [stripDot, if_pos (List.prefix_append _ _)]
  exact List.drop_left' (by decide)

theorem dropBin_append (name : Bytes) : dropBin (name ++ bytes ".bin") = name := by
  rw [dropBin, if_pos (List.suffix_append _ _)]
  exact List.take_left' (by rw [List.length_append]; exact Nat.add_sub_cancel _ 4)

/-- Dropping `.bin` where it is. -/
theorem dropBin_eq_iff {base : Bytes} (hbin : bytes ".bin" <:+ base) :
    dropBin base = name ↔ base = name ++ bytes ".bin" := by
  obtain ⟨stem, rfl⟩ := hbin
  rw [dropBin_append, List.append_left_inj]

theorem Clean.no_newline (hp : Clean p) : ∀ c ∈ p, (c == 10) = false :=
  fun c hc => beq_eq_false_iff_ne.mpr (hp c hc).2.2

theorem Clean.no_tab (hp : Clean p) : ∀ c ∈ p, (c == 9) = false :=
  fun c hc => beq_eq_false_iff_ne.mpr (hp c hc).2.1

theorem Clean.stem (hp : Clean p) : Clean (dropBin (baseName p)) :=
  fun b hb => hp b (mem_of_mem_baseName (mem_of_mem_dropBin hb))

theorem Clean.entry_no_newline (hp : Clean p) : ∀ c ∈ entry p, (c == 10) = false := by
  intro c hc
  rcases List.mem_append.mp hc with hc | hc
  · exact hp.stem.no_newline c hc
  · rcases List.mem_cons.mp hc with rfl | hc
    · rfl
    · exact hp.no_newline c hc

theorem columns_entry (hp : Clean p) : columns (entry p) = [dropBin (baseName p), p] :=
  splitOnP_pair (p := (· == 9)) rfl hp.stem.no_tab hp.no_tab

/-- Lines that are written are read back. -/
theorem lines_unlines {ls : List Bytes} (h : ∀ l ∈ ls, ∀ c ∈ l, (c == 10) = false) :
    lines (unlines 10 ls) = ls := fields_unlines (p := (· == 10)) rfl h

/-- The files that the index is about. -/
def binFiles (dump : List Bytes) : List Bytes := dump.filter fun p => bytes ".bin" <:+ baseName p

theorem mem_binFiles : p ∈ binFiles dump ↔ p ∈ dump ∧ bytes ".bin" <:+ baseName p := by
  rw [binFiles, List.mem_filter, decide_eq_true_iff]

/-- **The index** has one entry for each of them, and is sorted. -/
theorem partitionsIdx_eq (hclean : ∀ p ∈ dump, Clean p) :
    partitionsIdx le dump = unlines 10 (((binFiles dump).map entry).mergeSort le) := by
  have hbin : ∀ p ∈ binFiles dump, Clean p := fun p hp => hclean p (mem_binFiles.mp hp).1
  have hfound : lines (findBin dump) = (binFiles dump).map (bytes "./" ++ ·) := by
    refine lines_unlines fun l hl c hc => ?_
    obtain ⟨p, hp, rfl⟩ := List.mem_map.mp hl
    rcases List.mem_append.mp hc with hc | hc
    · have hdot : c = 46 ∨ c = 47 := by simpa [show bytes "./" = [46, 47] from rfl] using hc
      rcases hdot with rfl | rfl
      · rfl
      · rfl
    · exact (hbin p hp).no_newline c hc
  have hstripped : lines (unlines 10 ((lines (findBin dump)).map stripDot)) = binFiles dump := by
    rw [hfound, List.map_map]
    have hid : (binFiles dump).map (stripDot ∘ (bytes "./" ++ ·)) = binFiles dump :=
      (List.map_congr_left fun p _ => stripDot_dot p).trans (List.map_id _)
    rw [hid]
    exact lines_unlines fun p hp => (hbin p hp).no_newline
  have hentries : lines (unlines 10 ((binFiles dump).map entry)) = (binFiles dump).map entry := by
    refine lines_unlines fun l hl => ?_
    obtain ⟨p, hp, rfl⟩ := List.mem_map.mp hl
    exact (hbin p hp).entry_no_newline
  show unlines 10 ((lines (unlines 10 ((lines (unlines 10
    ((lines (findBin dump)).map stripDot))).map entry))).mergeSort le) = _
  rw [hstripped, hentries]

/-- The lines of the index. -/
theorem lines_partitionsIdx (hclean : ∀ p ∈ dump, Clean p) :
    lines (partitionsIdx le dump) = ((binFiles dump).map entry).mergeSort le := by
  rw [partitionsIdx_eq hclean]
  refine lines_unlines fun l hl => ?_
  obtain ⟨p, hp, rfl⟩ := List.mem_map.mp (List.mem_mergeSort.mp hl)
  exact (hclean p (mem_binFiles.mp hp).1).entry_no_newline

/-- The entry of a file is found under the name of its partition. -/
theorem entry_matches (hp : Clean p) (hbin : bytes ".bin" <:+ baseName p) :
    ((columns (entry p)).headD [] == name) = true ↔ baseName p = name ++ bytes ".bin" := by
  rw [columns_entry hp, beq_iff_eq, List.headD_cons, dropBin_eq_iff hbin]

/-- The index is the same, whatever order the files are found in. -/
theorem partitionsIdx_perm (htrans : ∀ x y z, le x y → le y z → le x z)
    (htotal : ∀ x y, le x y || le y x) (hantisymm : ∀ x y, le x y → le y x → x = y)
    (hclean : ∀ p ∈ dump, Clean p) (hperm : dump.Perm dump') :
    partitionsIdx le dump' = partitionsIdx le dump := by
  have hclean' : ∀ p ∈ dump', Clean p := fun p hp => hclean p (hperm.mem_iff.mpr hp)
  have hentries : ((binFiles dump').map entry).Perm ((binFiles dump).map entry) :=
    (hperm.symm.filter _).map entry
  rw [partitionsIdx_eq hclean', partitionsIdx_eq hclean,
    mergeSort_eq_of_perm htrans htotal hantisymm hentries]

/-- **The first line** with the name. -/
theorem lookup_cases (htrans : ∀ x y z, le x y → le y z → le x z)
    (htotal : ∀ x y, le x y || le y x) (hclean : ∀ p ∈ dump, Clean p) (hname : PlainName name) :
    (∀ p ∈ dump, baseName p ≠ name ++ bytes ".bin") ∧
        lookup awk name (partitionsIdx le dump) = [] ∨
      ∃ p ∈ dump, baseName p = name ++ bytes ".bin" ∧
        lookup awk name (partitionsIdx le dump) = p ++ [10] ∧
        ∀ q ∈ dump, baseName q = name ++ bytes ".bin" → le (entry p) (entry q) := by
  have hentry : ∀ p ∈ dump, baseName p = name ++ bytes ".bin" →
      entry p ∈ (binFiles dump).map entry ∧ ((columns (entry p)).headD [] == name) = true := by
    intro p hp hbase
    have hbin : bytes ".bin" <:+ baseName p := hbase ▸ List.suffix_append _ _
    exact ⟨List.mem_map_of_mem (mem_binFiles.mpr ⟨hp, hbin⟩),
      (entry_matches (hclean p hp) hbin).mpr hbase⟩
  have hfirst := find?_mergeSort (l := (binFiles dump).map entry)
    (q := fun line => (columns line).headD [] == name) htrans htotal
  simp only [lookup, lines_partitionsIdx hclean, hname.same]
  rcases hhit : (((binFiles dump).map entry).mergeSort le).find?
    fun line => (columns line).headD [] == name with _ | line
  · refine Or.inl ⟨fun p hp hbase => ?_, rfl⟩
    obtain ⟨hmem, hname⟩ := hentry p hp hbase
    exact hfirst.2.mp hhit (entry p) hmem hname
  · obtain ⟨hline, hname, hleast⟩ := hfirst.1 line hhit
    obtain ⟨p, hp, rfl⟩ := List.mem_map.mp hline
    obtain ⟨hdump, hbin⟩ := mem_binFiles.mp hp
    refine Or.inr ⟨p, hdump, (entry_matches (hclean p hdump) hbin).mp hname, ?_, ?_⟩
    · show (columns (entry p)).getD 1 [] ++ [10] = p ++ [10]
      rw [columns_entry (hclean p hdump)]
      rfl
    · intro q hq hbase
      obtain ⟨hmem, hname'⟩ := hentry q hq hbase
      exact hleast (entry q) hmem hname'

end Index

/-- **Looking a partition up** in the index of a backup. The index does not depend on the order that
`find` goes through the directories in. What is looked up is the path of a file that was dumped for
the partition, the least entry of those if the partition was dumped twice; and it is nothing only if
no file was dumped for it. That is for names that every `awk` takes as they are: one that looks like
a number is compared as a number, so that `1e1` finds the entry of `010`. -/
theorem index_names (awk : Awk) (le : Bytes → Bytes → Bool)
    (htrans : ∀ x y z, le x y → le y z → le x z) (htotal : ∀ x y, le x y || le y x)
    (hantisymm : ∀ x y, le x y → le y x → x = y)
    (dump dump' : List Bytes) (hclean : ∀ p ∈ dump, Clean p) (hperm : dump.Perm dump')
    (name : Bytes) (hname : PlainName name) :
    partitionsIdx le dump' = partitionsIdx le dump ∧
      ((∀ p ∈ dump, baseName p ≠ name ++ bytes ".bin") ∧
          lookup awk name (partitionsIdx le dump) = [] ∨
        ∃ p ∈ dump, baseName p = name ++ bytes ".bin" ∧
          lookup awk name (partitionsIdx le dump) = p ++ [10] ∧
          ∀ q ∈ dump, baseName q = name ++ bytes ".bin" → le (entry p) (entry q)) :=
  ⟨partitionsIdx_perm htrans htotal hantisymm hclean hperm,
    lookup_cases htrans htotal hclean hname⟩

/-- The order that `LC_ALL=C sort` goes by. -/
def memcmpLe : Bytes → Bytes → Bool
  | [], _ => true
  | _ :: _, [] => false
  | a :: x, b :: y => if a = b then memcmpLe x y else a.toNat < b.toNat

theorem memcmpLe_cons {a b : UInt8} {x y : Bytes} :
    memcmpLe (a :: x) (b :: y) = true ↔ a.toNat < b.toNat ∨ a = b ∧ memcmpLe x y = true := by
  rw [memcmpLe]
  split_ifs with hab
  · rw [hab, and_iff_right rfl, or_iff_right (Nat.lt_irrefl _)]
  · rw [decide_eq_true_iff, or_iff_left fun h => hab h.1]

theorem memcmpLe_trans : ∀ x y z, memcmpLe x y → memcmpLe y z → memcmpLe x z
  | [], _, _, _, _ => rfl
  | _ :: _, [], _, hxy, _ => absurd hxy (by simp [memcmpLe])
  | _ :: _, _ :: _, [], _, hyz => absurd hyz (by simp [memcmpLe])
  | a :: x, b :: y, c :: z, hxy, hyz => by
    rw [memcmpLe_cons] at hxy hyz ⊢
    rcases hxy with hab | ⟨rfl, hxy⟩
    · rcases hyz with hbc | ⟨rfl, -⟩
      · exact Or.inl (hab.trans hbc)
      · exact Or.inl hab
    · exact hyz.imp_right fun ⟨hbc, hyz⟩ => ⟨hbc, memcmpLe_trans x y z hxy hyz⟩

theorem memcmpLe_total : ∀ x y, memcmpLe x y || memcmpLe y x
  | [], _ => rfl
  | _ :: _, [] => rfl
  | a :: x, b :: y => by
    rw [Bool.or_eq_true, memcmpLe_cons, memcmpLe_cons]
    rcases Nat.lt_trichotomy a.toNat b.toNat with hab | hab | hba
    · exact Or.inl (Or.inl hab)
    · obtain rfl := UInt8.toNat_inj.mp hab
      have hrest := memcmpLe_total x y
      rw [Bool.or_eq_true] at hrest
      exact hrest.imp (fun h => Or.inr ⟨rfl, h⟩) fun h => Or.inr ⟨rfl, h⟩
    · exact Or.inr (Or.inl hba)

theorem memcmpLe_antisymm : ∀ x y, memcmpLe x y → memcmpLe y x → x = y
  | [], [], _, _ => rfl
  | [], _ :: _, _, hyx => absurd hyx (by simp [memcmpLe])
  | _ :: _, [], hxy, _ => absurd hxy (by simp [memcmpLe])
  | a :: x, b :: y, hxy, hyx => by
    rw [memcmpLe_cons] at hxy hyx
    rcases hxy with hab | ⟨rfl, hxy⟩
    · rcases hyx with hba | ⟨rfl, -⟩
      · exact absurd hab (Nat.lt_asymm hba)
      · exact absurd hab (Nat.lt_irrefl _)
    · rcases hyx with haa | ⟨-, hyx⟩
      · exact absurd haa (Nat.lt_irrefl _)
      · rw [memcmpLe_antisymm x y hxy hyx]

/-- The partitions of a small backup, in the order of the index. -/
def smallDump : List Bytes :=
  ["abl_a", "abl_b", "boot_a", "boot_b", "devinfo", "dtbo_a", "fsg", "modemst1", "modemst2",
    "onyxconfig", "persist", "vbmeta_a", "vbmeta_b"].map fun name =>
      bytes "lun4/" ++ bytes name ++ bytes ".bin"

theorem smallDump_clean : ∀ p ∈ smallDump, Clean p := by
  have hall : (smallDump.all fun p => p.all fun b => b ≠ 0 ∧ b ≠ 9 ∧ b ≠ 10) = true := by
    decide +kernel
  intro p hp b hb
  have hb' := List.all_eq_true.mp (List.all_eq_true.mp hall p hp) b hb
  rwa [decide_eq_true_iff] at hb'

/-- An `awk` that takes nothing for a number. -/
def textAwk : Awk := ⟨id, (· == ·), fun _ _ => rfl, fun _ _ _ => rfl⟩

/-- A partition that was dumped from two LUNs. -/
theorem index_names_twice :
    ∃ p ∈ bytes "lun5/fsg.bin" :: smallDump, baseName p = bytes "fsg" ++ bytes ".bin" ∧
      lookup textAwk (bytes "fsg") (partitionsIdx memcmpLe (bytes "lun5/fsg.bin" :: smallDump))
        = p ++ [10] ∧
      ∀ q ∈ bytes "lun5/fsg.bin" :: smallDump, baseName q = bytes "fsg" ++ bytes ".bin" →
        memcmpLe (entry p) (entry q) := by
  have hclean : ∀ p ∈ bytes "lun5/fsg.bin" :: smallDump, Clean p := by
    refine List.forall_mem_cons.mpr ⟨?_, smallDump_clean⟩
    have hall : ((bytes "lun5/fsg.bin").all fun b => b ≠ 0 ∧ b ≠ 9 ∧ b ≠ 10) = true := by
      decide +kernel
    exact fun b hb => of_decide_eq_true (List.all_eq_true.mp hall b hb)
  have hname : PlainName (bytes "fsg") := ⟨by decide, by decide⟩
  obtain ⟨-, hnames⟩ := index_names textAwk memcmpLe memcmpLe_trans memcmpLe_total
    memcmpLe_antisymm _ _ hclean (List.Perm.refl _) (bytes "fsg") hname
  rcases hnames with ⟨hnone, -⟩ | hsome
  · exact absurd (by decide +kernel) (hnone (bytes "lun5/fsg.bin") List.mem_cons_self)
  · exact hsome

/-! ### What is written to the device -/

/-- A world in which what is looked up comes from the dumps of the backups: from the index that
`edl-backup.sh` made, which older backups do not have, or from a search. -/
structure ReadsBackups (awk : Awk) (le : Bytes → Bytes → Bool) (dumps : Bytes → List Bytes)
    (w : World Step) : Prop where
  lookup : ∀ h dir name, (w h (.lookup (IDX dir) name)).output = [] ∨
    (w h (.lookup (IDX dir) name)).output = lookup awk (bytes name) (partitionsIdx le (dumps dir))
  find : ∀ h dir name, (w h (.find dir name)).output = findNamed dir (bytes name) (dumps dir)

/-- The file is one that was dumped for the partition. -/
def Dumped (dump : List Bytes) (dir : Bytes) (name : String) (file : Bytes) : Prop :=
  ∃ p ∈ dump, baseName p = bytes name ++ bytes ".bin" ∧
    (file = dir ++ bytes "/" ++ p ∨ file = pathUnder dir p)

/-- **What a run may write.** `unlock-bootloader.sh` writes to a slot of the ABL, and what it writes
is the Fairphone ABL or what was dumped for that slot, from a backup with all the critical
partitions. `edl-verify-restore.sh` writes to its test partition what was dumped for it. -/
def Run.MayWrite (root : Bytes) (dumps : Bytes → List Bytes) (part : String) (file : Bytes) :
    Run → Prop
  | .unlock _ dir => (∀ name ∈ critical, ∃ file, Dumped (dumps dir) dir name file) ∧
      ∃ slot : Part, part = slot.name ∧ (file = FP4_ABL root ∨ Dumped (dumps dir) dir part file)
  | .verifyRestore override dir =>
      testPart (assumedSlot override) = some part ∧ Dumped (dumps dir) dir part file

/-- If the command is a write, it is one of these. -/
def WritesOnly (may : String → Bytes → Prop) (c : Step) : Prop :=
  ∀ part file, c = .w part file → may part file

section Writes

variable {awk : Awk} {le : Bytes → Bytes → Bool} {dumps : Bytes → List Bytes} {w : World Step}
  {h h' : History Step} {dir root file p : Bytes} {name : String} {c : Step}
  {may : String → Bytes → Prop} {files : Bytes → Bytes} {sha256 : Bytes → String}

/-- What has happened before changes nothing about the backups. -/
theorem ReadsBackups.since (hreads : ReadsBackups awk le dumps w) (h₀ : History Step) :
    ReadsBackups awk le dumps (w.since h₀) :=
  ⟨fun h => hreads.lookup (h₀ ++ h), fun h => hreads.find (h₀ ++ h)⟩

/-- The names that the scripts look up. -/
theorem plainName_critical : ∀ name ∈ critical, PlainName (bytes name) := by
  have hall : ∀ name ∈ critical, 92 ∉ bytes name ∧ mayBeNumber (bytes name) = false := by
    decide +kernel
  exact fun name hname => ⟨(hall name hname).1, (hall name hname).2⟩

theorem plainName_dtbo {slot : Bytes} {part : String} (hpart : InactiveDtbo slot part) :
    PlainName (bytes part) := by
  rcases hpart with ⟨-, rfl⟩ | ⟨-, rfl⟩
  · exact ⟨by decide, by decide⟩
  · exact ⟨by decide, by decide⟩

theorem WritesOnly.of_asks (hc : Asks c) : WritesOnly may c := by
  rintro part file rfl
  exact hc.elim

theorem WritesOnly.of_steady (hc : Steady c) : WritesOnly may c := by
  rintro part file rfl
  exact hc.elim

/-- All writes so far are of these. -/
def AllWrites (may : String → Bytes → Prop) (h : History Step) : Prop :=
  ∀ o ∈ h, WritesOnly may o.1

theorem AllWrites.after (hall : AllWrites may h) (hc : WritesOnly may c) :
    AllWrites may (h.after w c) := by
  intro o ho
  rcases List.mem_append.mp ho with ho | ho
  · exact hall o ho
  · rw [List.mem_singleton.mp ho]
    exact hc

theorem AllWrites.run {α : Type} {s : Script Step α} (hs : s.Calls (WritesOnly may))
    (hall : AllWrites may h) : AllWrites may (s.run w h).2 :=
  run_keeps hs (fun _ _ hc hall => hall.after hc) hall

theorem Clean.oneLine (hp : Clean p) : OneLine p := fun b hb => ⟨(hp b hb).1, (hp b hb).2.2⟩

theorem OneLine.pathUnder (hdir : OneLine dir) (hp : OneLine p) : OneLine (pathUnder dir p) := by
  have hslash : OneLine (bytes "/") := by
    intro b hb
    rw [List.mem_singleton.mp hb]
    decide
  rw [UnlockBootloader.pathUnder]
  split_ifs
  · exact List.forall_mem_append.mpr ⟨hdir, hp⟩
  · exact List.forall_mem_append.mpr ⟨List.forall_mem_append.mpr ⟨hdir, hslash⟩, hp⟩

theorem AllWrites.of_run {α : Type} {s : Script Step α} {e : Ending α}
    (hs : s.Calls (WritesOnly may)) (hall : AllWrites may h) (hrun : s.run w h = (e, h')) :
    AllWrites may h' := by
  have hkept := hall.run (w := w) hs
  rwa [hrun] at hkept

theorem WritesOnly.of_flashing {what : String} (hc : Steady c ∨ c = .flashing what) :
    WritesOnly may c := by
  rcases hc with hc | rfl
  · exact .of_steady hc
  · exact fun _ _ heq => by simp at heq

/-- Writing both slots. -/
theorem bothSlots_calls {ready : Ready} {slot : String} {img : Part → Image}
    (himg : ∀ part, Fits part (img part))
    (hmay : ∀ part img, Fits part img → may part.name (ready.file root img)) :
    (bothSlots root files sha256 ready slot img).Calls (WritesOnly may) := by
  have hwrite : ∀ part, ((writeVerified (fun i => files (ready.file root i)) sha256 part
      (img part)).mapCalls (ready.step root)).Calls (WritesOnly may) := by
    refine fun part => calls_mapCalls ((writeVerified_calls (himg part)).mono ?_)
    rintro c (⟨part, img, rfl, hfits⟩ | ⟨part, rfl⟩)
    · intro name file heq
      obtain ⟨rfl, rfl⟩ := Step.w.inj heq
      exact hmay part img hfits
    · exact .of_steady trivial
  refine calls_bind (hwrite .ablA) fun _ => calls_bind (hwrite .ablB) fun _ => ?_
  refine calls_bind (calls_plain fun _ _ heq => by simp at heq) fun _ => ?_
  exact calls_bind (calls_plain fun _ _ heq => by simp at heq) fun _ => calls_pure ()

/-- Unlocking writes nothing. -/
theorem unlockDevice_calls : unlockDevice.Calls (WritesOnly may) := by
  refine calls_bind (toBootloader_calls.mono fun _ => .of_steady) fun _ => ?_
  refine calls_bind (calls_plain (.of_steady trivial)) fun _ => calls_ite ?_ (calls_exit 1)
  refine calls_bind (flashUnlock_calls.mono fun _ => .of_flashing) fun _ => calls_ite ?_ ?_
  · exact unlockCritical_calls.mono fun _ => .of_flashing
  · exact calls_bind (calls_plain (.of_steady trivial)) fun _ => calls_exit 1

/-- `$(…)` of a path of one line. -/
theorem substituted_line (hp : OneLine p) : substituted (p ++ [10]) = p := by
  have hfilter : (p ++ [10]).filter (· ≠ 0) = p ++ [10] := by
    refine List.filter_eq_self.mpr fun b hb => decide_eq_true ?_
    rcases List.mem_append.mp hb with hb | hb
    · exact (hp b hb).1
    · rw [List.mem_singleton.mp hb]
      decide
  rw [substituted, hfilter, List.rdropWhile_concat_pos _ _ _ (by decide),
    List.rdropWhile_eq_self_iff]
  intro hne
  rw [decide_eq_true_iff]
  exact (hp _ (List.getLast_mem hne)).2

theorem resolvePart_finished
    (hrun : (resolvePart dir name).run w h = (.finished (some file), h')) :
    Resolves dir h' name file := by
  obtain ⟨hit, h₁, hhit, hrest⟩ := bind_finished.mp hrun
  obtain ⟨rfl, rfl⟩ := ask_finished.mp hhit
  split_ifs at hrest with hempty
  · exact absurd (ret_finished.mp hrest).1 (by simp)
  · obtain ⟨hfile, rfl⟩ := ret_finished.mp hrest
    exact ⟨_, List.mem_append_right h (List.mem_singleton_self _), hempty,
      (Option.some.inj hfile).symm⟩

section Reads

variable (hclean : ∀ dir, ∀ p ∈ dumps dir, Clean p) (hreads : ReadsBackups awk le dumps w)

include hclean hreads

/-- **What a search finds** is a file that was dumped for the partition. -/
theorem resolveFound_dumped (hdir : OneLine dir)
    (hrun : (resolveFound dir name).run w h = (.finished (some file), h')) :
    Dumped (dumps dir) dir name file := by
  obtain ⟨hit, h₁, hfind, hrest⟩ := bind_finished.mp hrun
  obtain ⟨rfl, rfl⟩ := ask_finished.mp hfind
  rw [hreads.find] at hrest
  have hlines : ∀ dump' : List Bytes, (∀ p ∈ dump', Clean p) →
      lines (unlines 10 (dump'.map (pathUnder dir))) = dump'.map (pathUnder dir) := by
    intro dump' hclean'
    refine lines_unlines fun l hl c hc => beq_eq_false_iff_ne.mpr ?_
    obtain ⟨p, hp, rfl⟩ := List.mem_map.mp hl
    exact (hdir.pathUnder (hclean' p hp).oneLine c hc).2
  rw [findNamed, hlines _ fun p hp => hclean dir p (List.mem_filter.mp hp).1] at hrest
  rcases hfound : (dumps dir).filter fun p => baseName p == bytes name ++ bytes ".bin" with
    _ | ⟨p, ps⟩
  · rw [hfound] at hrest
    exact absurd hrest (by simp [ret_finished, substituted, unlines])
  · rw [hfound] at hrest
    have hp : p ∈ (dumps dir).filter fun p => baseName p == bytes name ++ bytes ".bin" :=
      hfound ▸ List.mem_cons_self
    obtain ⟨hp, hbase⟩ := List.mem_filter.mp hp
    have hone := hdir.pathUnder (hclean dir p hp).oneLine
    have hline :
        substituted (unlines 10 (((p :: ps).map (pathUnder dir)).take 1)) = pathUnder dir p :=
      (congrArg substituted (List.append_nil _)).trans (substituted_line hone)
    rw [hline] at hrest
    split_ifs at hrest with hempty
    · exact absurd (ret_finished.mp hrest).1 (by simp)
    · obtain ⟨hfile, -⟩ := ret_finished.mp hrest
      exact ⟨p, hp, beq_iff_eq.mp hbase, Or.inr (Option.some.inj hfile).symm⟩

variable (htrans : ∀ x y z, le x y → le y z → le x z) (htotal : ∀ x y, le x y || le y x)

include htrans htotal

/-- **What the index names** is one, too. -/
theorem Resolves.dumped (hname : PlainName (bytes name)) (hanswered : Answered w h)
    (hf : Resolves dir h name file) :
    Dumped (dumps dir) dir name file := by
  obtain ⟨r, hr, hne, rfl⟩ := hf
  obtain ⟨pre, post, hsplit⟩ := List.append_of_mem hr
  rw [hanswered pre _ r post hsplit] at hne ⊢
  rcases hreads.lookup pre dir name with hnone | hhit
  · rw [hnone] at hne
    exact absurd rfl hne
  · rw [hhit] at hne ⊢
    rcases lookup_cases htrans htotal (hclean dir) hname with
      ⟨-, hnone⟩ | ⟨p, hp, hbase, hp', -⟩
    · rw [hnone] at hne
      exact absurd rfl hne
    · rw [hp', substituted_line (hclean dir p hp).oneLine]
      exact ⟨p, hp, hbase, Or.inl rfl⟩

/-- **`resolve_part` of `edl-verify-restore.sh`**, from the index or by a search. -/
theorem resolveOrFind_dumped (hname : PlainName (bytes name)) (hdir : OneLine dir)
    (hanswered : Answered w h)
    (hrun : (resolveOrFind dir name).run w h = (.finished (some file), h')) :
    Dumped (dumps dir) dir name file := by
  obtain ⟨indexed, h₁, hindexed, hrest⟩ := bind_finished.mp hrun
  cases indexed with
  | none => exact resolveFound_dumped hclean hreads hdir hrest
  | some f =>
    obtain ⟨hfile, rfl⟩ := ret_finished.mp hrest
    obtain rfl := Option.some.inj hfile
    have hanswered₁ := answered_of_run hanswered hindexed
    obtain ⟨idx, h₂, hidx, hindexed⟩ := bind_finished.mp hindexed
    split_ifs at hindexed with hzero
    · exact (resolvePart_finished hindexed).dumped hclean hreads htrans htotal hname hanswered₁
    · exact absurd (ret_finished.mp hindexed).1 (by simp)

/-- **A run of `edl-verify-restore.sh`.** -/
theorem verifyRestore_writes {override : Bytes} (hdir : OneLine dir) (hanswered : Answered w h)
    (hmay : ∀ part file, Run.MayWrite root dumps part file (.verifyRestore override dir) →
      may part file) (hall : AllWrites may h) :
    AllWrites may ((verifyRestore files override dir).run w h).2 := by
  have hasks : ∀ c, Asks c → WritesOnly may c := fun c hc => .of_asks hc
  rw [verifyRestore]
  split_ifs
  · have hcalls : (orElse (.isDir dir) (exit 1)).Calls (WritesOnly may) :=
      calls_orElse (hasks _ trivial) (calls_exit 1)
    refine run_bind_keeps (hall.run hcalls) fun _ h₁ hrun₁ => ?_
    have hall₁ := hall.of_run hcalls hrun₁
    have hanswered₁ := answered_of_run hanswered hrun₁
    cases hpart : testPart (assumedSlot override) with
    | none => exact hall₁
    | some part =>
      have hcalls' : (resolveOrFind dir part).Calls (WritesOnly may) :=
        resolveOrFind_calls.mono hasks
      refine run_bind_keeps (hall₁.run hcalls') fun found h₂ hrun₂ => ?_
      have hall₂ := hall₁.of_run hcalls' hrun₂
      cases found with
      | none => exact hall₂
      | some src =>
        have hdumped : Dumped (dumps dir) dir part src :=
          resolveOrFind_dumped hclean hreads htrans htotal
            (plainName_dtbo (testPart_inactive hpart)) hdir hanswered₁ hrun₂
        have hwrite : WritesOnly may (.w part src) := by
          intro part' file' heq
          obtain ⟨rfl, rfl⟩ := Step.w.inj heq
          exact hmay _ _ ⟨hpart, hdumped⟩
        refine hall₂.run (calls_bind (calls_plain hwrite) fun _ => ?_)
        refine calls_bind (calls_plain (hasks _ trivial)) fun _ => calls_ite ?_ (calls_exit 2)
        refine calls_bind (calls_orElse (hasks _ trivial) (calls_exit 1)) fun _ => ?_
        exact calls_bind (calls_plain fun _ _ heq => by simp at heq) fun _ => calls_pure ()
  · exact hall

/-- **A run of `unlock-bootloader.sh`.** -/
theorem unlock_writes {activeSlot : Bytes} (hanswered : Answered w h)
    (hmay : ∀ part file, Run.MayWrite root dumps part file (.unlock activeSlot dir) →
      may part file) (hall : AllWrites may h) :
    AllWrites may ((unlock root files sha256 activeSlot dir).run w h).2 := by
  have hasks : ∀ c, Asks c → WritesOnly may c := fun c hc => .of_asks hc
  have hgates : (gates root activeSlot dir).Calls (WritesOnly may) := gates_calls.mono hasks
  rw [unlock_eq]
  refine run_bind_keeps (hall.run hgates) fun ready h₁ hrun₁ => ?_
  have hall₁ := hall.of_run hgates hrun₁
  have hanswered₁ := answered_of_run hanswered hrun₁
  obtain ⟨hpassed, honyx⟩ := gates_finished hrun₁
  have hcritical : ∀ name ∈ critical, ∃ file, Dumped (dumps dir) dir name file := by
    intro name hname
    obtain ⟨f, hf, -⟩ := hpassed.backup name hname
    exact ⟨f, hf.dumped hclean hreads htrans htotal (plainName_critical name hname) hanswered₁⟩
  have hfits : ∀ part img, Fits part img → may part.name (ready.file root img) := by
    intro part img hfits
    refine hmay _ _ ⟨hcritical, part, rfl, ?_⟩
    rcases hfits with rfl | rfl
    · exact Or.inl rfl
    · have hname : PlainName (bytes part.name) :=
        plainName_critical _ (by cases part <;> decide)
      exact Or.inr ((honyx part).dumped hclean hreads htrans htotal hname hanswered₁)
  have hedl : WritesOnly may (.adbReboot "edl") := .of_steady trivial
  refine hall₁.run (calls_bind (calls_orElse hedl (calls_exit 1)) fun _ => ?_)
  refine calls_bind (bothSlots_calls (fun _ => Or.inl rfl) hfits) fun _ => ?_
  exact calls_bind unlockDevice_calls fun _ => bothSlots_calls (fun _ => Or.inr rfl) hfits

end Reads

end Writes

/-- The backup that a run is about. -/
def Run.dir : Run → Bytes
  | .verifyRestore _ dir => dir
  | .unlock _ dir => dir

/-- **What a run writes**, after whatever has happened. -/
theorem run_writes {root : Bytes} {files : Bytes → Bytes} {sha256 : Bytes → String} {awk : Awk}
    {le : Bytes → Bytes → Bool} {dumps : Bytes → List Bytes} {w : World Step} {run : Run}
    (htrans : ∀ x y z, le x y → le y z → le x z) (htotal : ∀ x y, le x y || le y x)
    (hclean : ∀ dir, ∀ p ∈ dumps dir, Clean p) (hreads : ReadsBackups awk le dumps w)
    (hdir : OneLine run.dir) (h : History Step) :
    AllWrites (fun part file => run.MayWrite root dumps part file)
      ((run.script root files sha256).run (w.since h) []).2 := by
  have hnone : AllWrites (fun part file => run.MayWrite root dumps part file) [] :=
    fun o ho => absurd ho List.not_mem_nil
  cases run with
  | verifyRestore override dir =>
    exact verifyRestore_writes hclean (hreads.since h) htrans htotal hdir answered_nil
      (fun _ _ hmay => hmay) hnone
  | unlock activeSlot dir =>
    exact unlock_writes hclean (hreads.since h) htrans htotal answered_nil
      (fun _ _ hmay => hmay) hnone

/-- **What sessions write.** Whatever runs of both scripts there are on backups that
`edl-backup.sh` has made, and whatever else the commands give back: what a run writes to a partition
is the file that was dumped for that partition in the backup of the run, or the Fairphone ABL in a
slot of the ABL. The unlock script writes only to the slots of the ABL, and only from a backup with
all the critical partitions; the verifying script writes only to the test partition. -/
theorem writes_own_dump (root : Bytes) (files : Bytes → Bytes) (sha256 : Bytes → String) (awk : Awk)
    (le : Bytes → Bytes → Bool) (htrans : ∀ x y z, le x y → le y z → le x z)
    (htotal : ∀ x y, le x y || le y x) (dumps : Bytes → List Bytes)
    (hclean : ∀ dir, ∀ p ∈ dumps dir, Clean p) (w : World Step)
    (hreads : ReadsBackups awk le dumps w) (runs : List Run)
    (hdirs : ∀ run ∈ runs, OneLine run.dir) :
    session root files sha256 w runs []
        = (parts root files sha256 w runs []).flatMap Prod.snd ∧
      ∀ run own, (run, own) ∈ parts root files sha256 w runs [] → run ∈ runs ∧
        ∀ part file r, (.w part file, r) ∈ own → run.MayWrite root dumps part file := by
  refine ⟨session_eq runs [], ?_⟩
  generalize ([] : History Step) = h
  induction runs generalizing h with
  | nil => exact fun run own hown => absurd hown List.not_mem_nil
  | cons first runs ih =>
    obtain ⟨hfirst, hdirs⟩ := List.forall_mem_cons.mp hdirs
    intro run own hown
    rcases List.mem_cons.mp hown with heq | hown
    · obtain ⟨rfl, rfl⟩ := Prod.mk.inj heq
      exact ⟨List.mem_cons_self, fun part file r hmem =>
        run_writes htrans htotal hclean hreads hfirst h _ hmem part file rfl⟩
    · obtain ⟨hrun, hwrites⟩ := ih hdirs _ run own hown
      exact ⟨List.mem_cons_of_mem _ hrun, hwrites⟩

/-- A world with the small backup in every directory. -/
def backupWorld : World Step := fun h c => match c with
  | .lookup _ name => ⟨0, lookup textAwk (bytes name) (unlines 10 (smallDump.map entry))⟩
  | .find dir name => ⟨0, findNamed dir (bytes name) smallDump⟩
  | c => kindWorld h c

theorem smallDump_index : partitionsIdx memcmpLe smallDump = unlines 10 (smallDump.map entry) := by
  have hall : binFiles smallDump = smallDump := by decide +kernel
  rw [partitionsIdx_eq smallDump_clean, hall, List.mergeSort_of_pairwise]
  decide +kernel

theorem backupWorld_reads : ReadsBackups textAwk memcmpLe (fun _ => smallDump) backupWorld := by
  constructor
  · intro h dir name
    rw [smallDump_index, backupWorld]
    exact Or.inr rfl
  · intro h dir name
    rw [backupWorld]

theorem writes_own_dump_small :
    (∀ run own, (run, own) ∈ parts [] allSame smallSha256 backupWorld smallSession [] →
      ∀ part file r, (.w part file, r) ∈ own →
        run.MayWrite [] (fun _ => smallDump) part file) ∧
    ∃ o ∈ session [] allSame smallSha256 backupWorld smallSession [],
      o.1 = .w "abl_b" (bytes "b/lun4/abl_b.bin") := by
  have hdirs : ∀ run ∈ smallSession, OneLine run.dir := by
    have hone : OneLine [98] := by
      intro b hb
      rw [List.mem_singleton.mp hb]
      decide
    exact List.forall_mem_cons.mpr ⟨hone, List.forall_mem_singleton.mpr hone⟩
  constructor
  · intro run own hown
    exact ((writes_own_dump [] allSame smallSha256 textAwk memcmpLe memcmpLe_trans memcmpLe_total
      (fun _ => smallDump) (fun _ => smallDump_clean) backupWorld backupWorld_reads smallSession
      hdirs).2 run own hown).2
  · decide +kernel

end UnlockBootloader

end PalmaEos
