import Mathlib.Data.List.Dedup
import Mathlib.Data.List.DropRight
import Mathlib.Data.List.Sort
import PalmaEos.Lib.Text

/-!
# `extract-builtin-fw.py`

The firmware that is built into a kernel is listed in a table of `(name, data, size)` entries of 24
bytes, whose pointers are kernel addresses. A raw image gives no load address. So the script looks
for the strings of the known names, and then for a run of entries whose name pointers are the
offsets of such strings plus one number, the bias. The bias found, it goes through the whole image
once more and takes every triple of words that reads as an entry.

Two steps of the search are cut short: the candidates for one offset when eight entries resolve, and
the offsets when eight have resolved. Otherwise the longest run so far is kept.

## Main results

* `le_verify_iff` — what `verify` counts
* `search_at_table` — the search stops at the table, with its bias
* `items_of_layout` — the walk over the image finds the table's entries and nothing else
* `table_recovered` — both together
-/

namespace PalmaEos

namespace BuiltinFw

/-- `sizeof(struct builtin_fw)`. -/
def ENTRY : ℕ := 24

/-- Where kernel addresses begin. -/
def KERNEL : ℕ := 0xFFFF000000000000

/-- A little-endian `u64`. -/
def u64 (d : Bytes) (off : ℕ) : ℕ := leAt 8 d off

/-- `d.find(pat)`, with `i` bytes of the image passed. -/
def findFrom (pat : Bytes) : ℕ → Bytes → Option ℕ
  | _, [] => none
  | i, b :: d => if pat.isPrefixOf (b :: d) then some i else findFrom pat (i + 1) d

/-- `find_names`: the names that stand in the image, with the offsets of their first strings. -/
def findNames (d : Bytes) (names : List Text) : List (Text × ℕ) :=
  names.filterMap fun n => (findFrom (Text.encode n ++ [0]) 0 d).map fun i => (n, i)

/-- The last part of a path. -/
def basename (n : Text) : Text := n.rtakeWhile (· ≠ '/')

/-- The known names. -/
def names : List Text :=
  ["waveform/eink_waveform.wbf",
    "mxo/mxo1300_nvcm_81.ied", "mxo/mxo4300_nvcm_81.ied",
    "mxo/mxo1300_nvcm_82.ied", "mxo/mxo4300_nvcm_82.ied",
    "mxo/mxo1300_nvcm_83.ied", "mxo/mxo1300_nvcm_84.ied",
    "mxo/mxo1300_nvcm_86.ied", "mxo/mxo1300_nvcm_87.ied",
    "lfcpnx/lfcpnx100_tcon_fw_9f.bin", "lfcpnx/lfcpnx100_tcon_fw_9e.bin",
    "lfcpnx/lfcpnx100_tcon_fw_99.bin", "lfcpnx/lfcpnx100_tcon_fw_a2.bin",
    "lfcpnx/lfcpnx100_tcon_fw_a5.bin", "lfcpnx/lfcpnx100_tcon_fw_a7.bin"].map String.toList

/-- `found`: the names may be stored with or without their directories. -/
def found (d : Bytes) : List (Text × ℕ) :=
  if findNames d names = [] then findNames d (names.map basename) else findNames d names

/-- `sorted_offs`. -/
def sortedOffs (d : Bytes) : List ℕ := ((found d).map Prod.snd).dedup.mergeSort

/-- `gaps`. -/
def gaps (offs : List ℕ) : List ℤ := List.zipWith (fun a b => (b : ℤ) - a) offs offs.tail

/-- `range(0, stop, 8)`. -/
def range8 (stop : ℕ) : List ℕ := (List.range ((stop + 7) / 8)).map (8 * ·)

/-- The entry at `off` resolves: its name pointer is a kernel address that the bias takes to one of
the names, and its size is one of a firmware file. -/
def Resolves (d : Bytes) (offs : List ℕ) (bias : ℤ) (off : ℕ) : Prop :=
  off + ENTRY ≤ d.length ∧ KERNEL ≤ u64 d off ∧ (u64 d off - bias ∈ offs.map Nat.cast) ∧
    0 < u64 d (off + 16) ∧ u64 d (off + 16) < 64 <<< 20

instance (d : Bytes) (offs : List ℕ) (bias : ℤ) (off : ℕ) : Decidable (Resolves d offs bias off) :=
  inferInstanceAs (Decidable (_ ∧ _ ∧ _ ∧ _ ∧ _))

/-- The loop of `verify`, with `k` rounds left. -/
def verifyFrom (d : Bytes) (offs : List ℕ) (bias : ℤ) : ℕ → ℕ → ℕ
  | 0, _ => 0
  | k + 1, o => if Resolves d offs bias o then verifyFrom d offs bias k (o + ENTRY) + 1 else 0

/-- `verify`. -/
def verify (d : Bytes) (offs : List ℕ) (off : ℕ) (bias : ℤ) : ℕ := verifyFrom d offs bias 40 off

/-- `best`, and `bias` and `table_off` once they are set. -/
structure Best where
  best : ℕ
  table : Option (ℤ × ℕ)

/-- The loop over the candidates for one offset. -/
def tryCands (d : Bytes) (offs : List ℕ) (off : ℕ) (d1 : ℤ) : List ℕ → Best → Best
  | [], s => s
  | cand :: cands, s =>
    if cand + d1 ∉ offs.map Nat.cast then tryCands d offs off d1 cands s
    else
      let bias := (u64 d off : ℤ) - cand
      let n := verify d offs off bias
      let s := if s.best < n then ⟨n, some (bias, off)⟩ else s
      if 8 ≤ n then s else tryCands d offs off d1 cands s

/-- The loop over the offsets. -/
def search (d : Bytes) (offs : List ℕ) : List ℕ → Best → Best
  | [], s => s
  | off :: rest, s =>
    let v0 := u64 d off
    let v1 := u64 d (off + ENTRY)
    if v0 < KERNEL then search d offs rest s
    else if v1 < KERNEL then search d offs rest s
    else if (v1 : ℤ) - v0 ∉ gaps offs then search d offs rest s
    else
      let s := tryCands d offs off (v1 - v0) offs s
      if 8 ≤ s.best then s else search d offs rest s

/-- What the walk reports of a triple: a blob that is written, or one whose data lie outside. -/
inductive Item
  | outside (name : Text)
  | blob (name : Text) (data : Bytes)
  deriving DecidableEq

/-- `inv`. -/
def inv (found : List (Text × ℕ)) (off : ℤ) : Option Text :=
  (found.reverse.find? fun p => (p.2 : ℤ) = off).map Prod.fst

/-- One round of the walk. -/
def item (d : Bytes) (found : List (Text × ℕ)) (bias : ℤ) (off : ℕ) : Option Item :=
  let nameP := u64 d off
  let dataP := u64 d (off + 8)
  let size := u64 d (off + 16)
  if nameP < KERNEL ∨ dataP < KERNEL then none
  else
    match inv found (nameP - bias) with
    | none => none
    | some name =>
      if ¬ (0 < size ∧ size < 64 <<< 20) then none
      else
        let dOff := (dataP : ℤ) - bias
        if dOff < 0 ∨ d.length < dOff + size then some (.outside name)
        else some (.blob name (window d dOff.toNat size))

/-- What the script comes to. -/
inductive Outcome
  /-- `no firmware name strings found` -/
  | noNames
  /-- `could not locate the table reliably` -/
  | noTable (best : ℕ)
  /-- `table at ...`, and the walk. -/
  | walked (tableOff best : ℕ) (bias : ℤ) (items : List Item)
  deriving DecidableEq

/-- `main`, given the image. -/
def main (d : Bytes) : Outcome :=
  if found d = [] then .noNames
  else
    let s := search d (sortedOffs d) (range8 (d.length - ENTRY * 3)) ⟨0, none⟩
    match s.table with
    | none => .noTable s.best
    | some (bias, tableOff) =>
      if s.best < 3 then .noTable s.best
      else .walked tableOff s.best bias
        ((range8 (d.length - ENTRY)).filterMap (item d (found d) bias))

/-! ### The count of `verify` -/

section Verify

variable {d : Bytes} {offs : List ℕ} {bias : ℤ}

theorem le_verifyFrom_iff : ∀ {k n o : ℕ}, n ≤ verifyFrom d offs bias k o ↔
    n ≤ k ∧ ∀ i < n, Resolves d offs bias (o + ENTRY * i)
  | _, 0, _ => by simp
  | 0, n + 1, o => by simp [verifyFrom]
  | k + 1, n + 1, o => by
    rw [verifyFrom]
    split_ifs with hres
    · rw [Nat.add_le_add_iff_right, Nat.add_le_add_iff_right, le_verifyFrom_iff,
        Nat.forall_lt_succ_left]
      have hshift : ∀ i, o + ENTRY + ENTRY * i = o + ENTRY * (i + 1) := fun i => by ring
      simp [hshift, hres]
    · refine iff_of_false (by omega) fun h => hres ?_
      simpa using h.2 0 (by omega)

/-- `verify` counts the entries that resolve in a row, up to 40. -/
theorem le_verify_iff {n off : ℕ} : n ≤ verify d offs off bias ↔
    n ≤ 40 ∧ ∀ i < n, Resolves d offs bias (off + ENTRY * i) :=
  le_verifyFrom_iff

end Verify

/-! ### The offsets of the names -/

theorem mem_sortedOffs {d : Bytes} {off : ℕ} : off ∈ sortedOffs d ↔ ∃ n, (n, off) ∈ found d := by
  rw [sortedOffs, List.mem_mergeSort, List.mem_dedup]
  simp

theorem pairwise_sortedOffs (d : Bytes) : (sortedOffs d).Pairwise (· < ·) := by
  have hle : (sortedOffs d).Pairwise (· ≤ ·) := List.pairwise_mergeSort' _ _
  have hne : (sortedOffs d).Nodup := (List.mergeSort_perm _ _).nodup_iff.mpr (List.nodup_dedup _)
  exact (hle.and hne).imp fun h => lt_of_le_of_ne h.1 h.2

theorem findFrom_eq_some {pat : Bytes} : ∀ {d : Bytes} {i j : ℕ}, findFrom pat i d = some j →
    i ≤ j ∧ pat <+: d.drop (j - i)
  | b :: d, i, j, h => by
    rw [findFrom] at h
    split_ifs at h with hpat
    · obtain rfl := Option.some.inj h
      rw [Nat.sub_self]
      exact ⟨le_rfl, List.isPrefixOf_iff_prefix.mp hpat⟩
    · obtain ⟨hle, hpre⟩ := findFrom_eq_some h
      rw [show j - i = j - (i + 1) + 1 by omega]
      exact ⟨by omega, hpre⟩

theorem of_mem_findNames {d : Bytes} {ns : List Text} {n : Text} {off : ℕ}
    (h : (n, off) ∈ findNames d ns) : n ∈ ns ∧ Text.encode n ++ [0] <+: d.drop off := by
  obtain ⟨n', hn', h⟩ := List.mem_filterMap.mp h
  obtain ⟨i, hi, heq⟩ := Option.map_eq_some_iff.mp h
  obtain ⟨rfl, rfl⟩ := Prod.mk.inj heq
  exact ⟨hn', (findFrom_eq_some hi).2⟩

/-- Strings that a NUL ends do not begin one another. -/
theorem eq_of_nul_terminated {a b s : Bytes} (ha : 0 ∉ a) (hb : 0 ∉ b) (has : a ++ [0] <+: s)
    (hbs : b ++ [0] <+: s) : a = b := by
  have htake : ∀ {c : Bytes}, 0 ∉ c → c ++ [0] <+: s → s.takeWhile (· ≠ 0) = c := by
    rintro c hc ⟨t, rfl⟩
    have hall : ∀ x ∈ c, decide (x ≠ 0) = true := fun x hx =>
      decide_eq_true (ne_of_mem_of_not_mem hx hc)
    rw [List.append_assoc, List.takeWhile_append_of_pos hall]
    simp
  rw [← htake ha has, htake hb hbs]

theorem nul_notMem_of_mem_names : ∀ n ∈ names ++ names.map basename, 0 ∉ Text.encode n := by
  decide +kernel

theorem of_mem_found {d : Bytes} {n : Text} {off : ℕ} (h : (n, off) ∈ found d) :
    0 ∉ Text.encode n ∧ Text.encode n ++ [0] <+: d.drop off := by
  rw [found] at h
  split_ifs at h
  · obtain ⟨hn, hpre⟩ := of_mem_findNames h
    exact ⟨nul_notMem_of_mem_names n (List.mem_append_right _ hn), hpre⟩
  · obtain ⟨hn, hpre⟩ := of_mem_findNames h
    exact ⟨nul_notMem_of_mem_names n (List.mem_append_left _ hn), hpre⟩

/-- At one place stands one name. -/
theorem found_name_unique {d : Bytes} {n n' : Text} {off : ℕ} (h : (n, off) ∈ found d)
    (h' : (n', off) ∈ found d) : n = n' := by
  obtain ⟨hn, hpre⟩ := of_mem_found h
  obtain ⟨hn', hpre'⟩ := of_mem_found h'
  exact Text.encode_inj.mp (eq_of_nul_terminated hn hn' hpre hpre')

theorem inv_eq_some_iff {d : Bytes} {n : Text} {x : ℤ} :
    inv (found d) x = some n ↔ ∃ off : ℕ, (off : ℤ) = x ∧ (n, off) ∈ found d := by
  rw [inv, Option.map_eq_some_iff]
  constructor
  · rintro ⟨⟨n', off⟩, hfind, rfl⟩
    exact ⟨off, by simpa using List.find?_some hfind,
      List.mem_reverse.mp (List.mem_of_find?_eq_some hfind)⟩
  · rintro ⟨off, rfl, hmem⟩
    obtain ⟨⟨n', off'⟩, hfind⟩ := Option.isSome_iff_exists.mp
      (List.find?_isSome (p := fun p : Text × ℕ => decide ((p.2 : ℤ) = off)).mpr
        ⟨_, List.mem_reverse.mpr hmem, decide_eq_true rfl⟩)
    obtain rfl : off' = off := by simpa using List.find?_some hfind
    have hmem' := List.mem_reverse.mp (List.mem_of_find?_eq_some hfind)
    exact ⟨_, hfind, found_name_unique hmem' hmem⟩

theorem sublist_findNames (d : Bytes) :
    ∀ ns : List Text, ((findNames d ns).map Prod.fst).Sublist ns
  | [] => List.Sublist.refl _
  | n :: ns => by
    have ih := sublist_findNames d ns
    rw [findNames] at ih ⊢
    cases hfind : findFrom (Text.encode n ++ [0]) 0 d with
    | none =>
      rw [List.filterMap_cons_none (by rw [hfind]; rfl)]
      exact ih.cons n
    | some i =>
      rw [List.filterMap_cons_some (by rw [hfind]; rfl)]
      exact ih.cons_cons n

theorem nodup_basename : (names.map basename).Nodup := by decide +kernel

theorem nodup_basename_basename : ((names.map basename).map basename).Nodup := by decide +kernel

/-- The files that the names found are written to are different files. -/
theorem nodup_found_basename (d : Bytes) : ((found d).map fun p => basename p.1).Nodup := by
  have hsub : ∀ {ns : List Text}, (ns.map basename).Nodup →
      ((findNames d ns).map fun p => basename p.1).Nodup := fun {ns} h => by
    have := h.sublist ((sublist_findNames d ns).map basename)
    rwa [List.map_map] at this
  rw [found]
  split_ifs
  · exact hsub nodup_basename_basename
  · exact hsub nodup_basename

theorem nodup_found_snd (d : Bytes) : ((found d).map Prod.snd).Nodup := by
  refine (List.nodup_map_iff_inj_on (nodup_found_basename d).of_map).mpr ?_
  rintro ⟨n, off⟩ hn ⟨n', off'⟩ hn' (rfl : off = off')
  rw [found_name_unique hn hn']

theorem length_sortedOffs (d : Bytes) : (sortedOffs d).length = (found d).length := by
  rw [sortedOffs, List.length_mergeSort, (nodup_found_snd d).dedup, List.length_map]

/-- The name that stands at the `i`-th of the offsets. -/
def nameOf (d : Bytes) (i : ℕ) : Text := (inv (found d) ((sortedOffs d).getD i 0)).getD []

theorem mem_found_iff {d : Bytes} {i : ℕ} (hi : i < (sortedOffs d).length) {n : Text} :
    (n, (sortedOffs d)[i]) ∈ found d ↔ n = nameOf d i := by
  obtain ⟨n', hn'⟩ := mem_sortedOffs.mp (List.getElem_mem hi)
  have hname : nameOf d i = n' := by
    rw [nameOf, List.getD_eq_getElem?_getD, List.getElem?_eq_getElem hi, Option.getD_some,
      inv_eq_some_iff.mpr ⟨_, rfl, hn'⟩, Option.getD_some]
  rw [hname]
  exact ⟨fun hn => found_name_unique hn hn', fun hn => hn ▸ hn'⟩

/-! ### The layout -/

/-- The bytes that entry `i` of a table at `T` points to. -/
def entryData (d : Bytes) (β : ℤ) (T i : ℕ) : Bytes :=
  window d (u64 d (T + ENTRY * i + 8) - β).toNat (u64 d (T + ENTRY * i + 16))

/-- **The table stands at `T`, under the bias `β`.** It has an entry for each of the names that are
in the image, in the order of their strings, and nothing that is no entry of it looks like one. -/
structure Layout (d : Bytes) (β : ℤ) (T : ℕ) : Prop where
  aligned : 8 ∣ T
  many : 8 ≤ (sortedOffs d).length
  inside : T + ENTRY * (sortedOffs d).length < d.length
  name : ∀ i (hi : i < (sortedOffs d).length),
    (u64 d (T + ENTRY * i) : ℤ) = β + (sortedOffs d)[i]
  name_kernel : ∀ i < (sortedOffs d).length, KERNEL ≤ u64 d (T + ENTRY * i)
  data_kernel : ∀ i < (sortedOffs d).length, KERNEL ≤ u64 d (T + ENTRY * i + 8)
  size : ∀ i < (sortedOffs d).length,
    0 < u64 d (T + ENTRY * i + 16) ∧ u64 d (T + ENTRY * i + 16) < 64 <<< 20
  data_inside : ∀ i < (sortedOffs d).length, β ≤ u64 d (T + ENTRY * i + 8) ∧
    u64 d (T + ENTRY * i + 8) - β + u64 d (T + ENTRY * i + 16) ≤ d.length
  /-- No eight entries in a row resolve before the table, whatever the bias. -/
  first : ∀ off, 8 ∣ off → off < T → ∀ b : ℤ,
    ¬ ∀ k < 8, Resolves d (sortedOffs d) b (off + ENTRY * k)
  /-- Nothing that lies outside the table resolves under its bias. -/
  alone : ∀ off, 8 ∣ off → off + ENTRY ≤ T ∨ T + ENTRY * (sortedOffs d).length ≤ off →
    ¬ Resolves d (sortedOffs d) β off

section Layout

variable {d : Bytes} {β : ℤ} {T : ℕ}

/-- The entries of the table resolve. -/
theorem Layout.resolves (h : Layout d β T) {i : ℕ} (hi : i < (sortedOffs d).length) :
    Resolves d (sortedOffs d) β (T + ENTRY * i) := by
  have hin := h.inside
  refine ⟨?_, h.name_kernel i hi, ?_, h.size i hi⟩
  · have := Nat.mul_le_mul_left ENTRY (Nat.succ_le_of_lt hi)
    rw [Nat.mul_succ] at this
    omega
  · rw [h.name i hi, add_sub_cancel_left]
    exact List.mem_map_of_mem (List.getElem_mem hi)

/-! ### The search -/

section Search

variable {offs : List ℕ}

/-- No candidate brings the best run to eight where none of them verifies so far. -/
theorem tryCands_best_lt {off : ℕ} (hno : ∀ b, verify d offs off b < 8) (d1 : ℤ) :
    ∀ (cands : List ℕ) {s : Best}, s.best < 8 → (tryCands d offs off d1 cands s).best < 8
  | [], _, hs => hs
  | cand :: cands, s, hs => by
    have hn := hno (u64 d off - cand)
    rw [tryCands]
    dsimp only
    rw [if_neg (not_le.mpr hn)]
    split_ifs
    · exact tryCands_best_lt hno d1 cands hn
    · exact tryCands_best_lt hno d1 cands hs
    · exact tryCands_best_lt hno d1 cands hs

/-- The search passes the offsets where no eight entries resolve. -/
theorem search_append (rest : List ℕ) :
    ∀ {pre : List ℕ}, (∀ off ∈ pre, ∀ b, verify d offs off b < 8) → ∀ {s : Best}, s.best < 8 →
      ∃ s', s'.best < 8 ∧ search d offs (pre ++ rest) s = search d offs rest s'
  | [], _, s, hs => ⟨s, hs, rfl⟩
  | off :: pre, hno, s, hs => by
    have ih : ∀ {s : Best}, s.best < 8 →
        ∃ s', s'.best < 8 ∧ search d offs (pre ++ rest) s = search d offs rest s' :=
      search_append rest fun off hoff => hno off (List.mem_cons_of_mem _ hoff)
    have hlt := fun d1 => tryCands_best_lt (hno off List.mem_cons_self) d1 offs hs
    rw [List.cons_append, search]
    dsimp only
    rw [if_neg (not_le.mpr (hlt _))]
    split_ifs
    · exact ih hs
    · exact ih hs
    · exact ih (hlt _)
    · exact ih hs

end Search

theorem range8_append {T stop : ℕ} (h8 : 8 ∣ T) (hlt : T < stop) :
    ∃ rest, range8 stop = range8 T ++ T :: rest := by
  obtain ⟨t, rfl⟩ := h8
  obtain ⟨r, hr⟩ : ∃ r, (stop + 7) / 8 = t + (r + 1) := ⟨(stop + 7) / 8 - t - 1, by omega⟩
  refine ⟨(List.range r).map fun k => 8 * (t + (k + 1)), ?_⟩
  rw [range8, range8, hr, List.range_add, List.map_append, List.range_succ_eq_map,
    show (8 * t + 7) / 8 = t by omega]
  simp [Function.comp_def]

theorem mem_range8 {stop off : ℕ} : off ∈ range8 stop ↔ 8 ∣ off ∧ off < stop := by
  simp only [range8, List.mem_map, List.mem_range]
  refine ⟨?_, fun h => ?_⟩
  · rintro ⟨k, hk, rfl⟩
    exact ⟨Nat.dvd_mul_right 8 k, by omega⟩
  · obtain ⟨⟨k, rfl⟩, hk⟩ := h
    exact ⟨k, by omega, rfl⟩

/-- Before the table no bias verifies for eight entries. -/
theorem Layout.verify_lt (h : Layout d β T) {off : ℕ} (hoff : off ∈ range8 T) (b : ℤ) :
    verify d (sortedOffs d) off b < 8 := by
  rw [mem_range8] at hoff
  exact not_le.mp fun h8 => h.first off hoff.1 hoff.2 b (le_verify_iff.mp h8).2

theorem Layout.le_verify (h : Layout d β T) : 8 ≤ verify d (sortedOffs d) T β :=
  le_verify_iff.mpr ⟨by decide, fun _ hi => h.resolves (lt_of_lt_of_le hi h.many)⟩

/-- The first two offsets, which give the gap that the search looks for at the table. -/
theorem Layout.exists_offs (h : Layout d β T) :
    ∃ o₀ o₁ offs, sortedOffs d = o₀ :: o₁ :: offs ∧
      (u64 d T : ℤ) = β + o₀ ∧ (u64 d (T + ENTRY) : ℤ) = β + o₁ := by
  have hmany := h.many
  have h0 := h.name 0 (by omega)
  have h1 := h.name 1 (by omega)
  match hoffs : sortedOffs d with
  | [] | [_] => simp [hoffs] at hmany
  | o₀ :: o₁ :: offs =>
    simp only [hoffs] at h0 h1
    exact ⟨o₀, o₁, offs, rfl, by simpa using h0, by simpa using h1⟩

/-- At the table the first candidate is the right one, and the loop stops there. -/
theorem Layout.search_table (h : Layout d β T) (rest : List ℕ) {s : Best} (hs : s.best < 8) :
    search d (sortedOffs d) (T :: rest) s =
      ⟨verify d (sortedOffs d) T β, some (β, T)⟩ := by
  obtain ⟨o₀, o₁, offs, hoffs, h0, h1⟩ := h.exists_offs
  have hmany := h.many
  have h8 := h.le_verify
  have hk0 := h.name_kernel 0 (by omega)
  have hk1 := h.name_kernel 1 (by omega)
  rw [Nat.mul_zero, Nat.add_zero] at hk0
  rw [Nat.mul_one] at hk1
  have hd : (u64 d (T + ENTRY) : ℤ) - u64 d T = o₁ - o₀ := by omega
  have hgap : (o₁ : ℤ) - o₀ ∈ gaps (sortedOffs d) := by
    rw [hoffs]
    exact List.mem_cons_self
  have hmem : (o₀ : ℤ) + (o₁ - o₀) ∈ (sortedOffs d).map Nat.cast := by
    rw [hoffs, add_sub_cancel]
    exact List.mem_cons_of_mem _ List.mem_cons_self
  have hβ : (u64 d T : ℤ) - o₀ = β := by omega
  have htry : tryCands d (sortedOffs d) T (o₁ - o₀) (sortedOffs d) s =
      ⟨verify d (sortedOffs d) T β, some (β, T)⟩ := by
    nth_rewrite 2 [hoffs]
    rw [tryCands, if_neg (not_not.mpr hmem)]
    dsimp only
    rw [hβ, if_pos h8, if_pos (by omega)]
  rw [search]
  dsimp only
  rw [if_neg (not_lt.mpr hk0), if_neg (not_lt.mpr hk1), hd, if_neg (not_not.mpr hgap), htry,
    if_pos h8]

/-- **The search stops at the table.** What it has seen before is not good enough to stop for, and
does not outdo the table. -/
theorem search_at_table (h : Layout d β T) {stop : ℕ} (hstop : T < stop) :
    search d (sortedOffs d) (range8 stop) ⟨0, none⟩ =
      ⟨verify d (sortedOffs d) T β, some (β, T)⟩ := by
  obtain ⟨rest, hrange⟩ := range8_append h.aligned hstop
  obtain ⟨s, hs, hsearch⟩ : ∃ s, s.best < 8 ∧
      search d (sortedOffs d) (range8 T ++ T :: rest) ⟨0, none⟩ =
        search d (sortedOffs d) (T :: rest) s :=
    search_append _ (fun off hoff b => h.verify_lt hoff b) (by decide)
  rw [hrange, hsearch, h.search_table rest hs]

/-! ### The walk -/

/-- What is reported of resolves, and its data pointer is a kernel address. -/
theorem resolves_of_item {off : ℕ} (hoff : off + ENTRY ≤ d.length) {x : Item}
    (h : item d (found d) β off = some x) :
    Resolves d (sortedOffs d) β off ∧ KERNEL ≤ u64 d (off + 8) := by
  rw [item] at h
  split_ifs at h with hkernel hsize
  · rw [not_or, not_lt, not_lt] at hkernel
    cases hinv : inv (found d) (u64 d off - β) with
    | none => simp [hinv] at h
    | some n =>
      obtain ⟨o, ho, hmem⟩ := inv_eq_some_iff.mp hinv
      refine ⟨⟨hoff, hkernel.1, ?_, hsize⟩, hkernel.2⟩
      rw [← ho]
      exact List.mem_map_of_mem (mem_sortedOffs.mpr ⟨n, hmem⟩)
  · cases hinv : inv (found d) (u64 d off - β) <;> simp [hinv] at h

/-- A triple that straddles entries of the table takes a size for a pointer, or a pointer for a
size. -/
theorem Layout.not_straddling (h : Layout d β T) {off : ℕ} (h8 : 8 ∣ off) (hlo : T < off + ENTRY)
    (hhi : off < T + ENTRY * (sortedOffs d).length)
    (hoff : ∀ i < (sortedOffs d).length, off ≠ T + ENTRY * i)
    (hres : Resolves d (sortedOffs d) β off) (hdata : KERNEL ≤ u64 d (off + 8)) : False := by
  obtain ⟨-, hname, -, -, hsize⟩ := hres
  have hmany := h.many
  have hk : 64 <<< 20 ≤ KERNEL := by decide
  obtain ⟨t, ht⟩ := h.aligned
  obtain ⟨o, ho⟩ := h8
  rw [ENTRY] at *
  rcases Nat.lt_or_ge off T with hlt | hge
  · have h0 := h.name_kernel 0 (by omega)
    have h1 := h.data_kernel 0 (by omega)
    rw [Nat.mul_zero, Nat.add_zero] at h0 h1
    rcases (by omega : off + 16 = T ∨ off + 16 = T + 8) with heq | heq
    · rw [heq] at hsize
      omega
    · rw [heq] at hsize
      omega
  · obtain ⟨i, r, hr, hi⟩ : ∃ i r, r < 3 ∧ off = T + 24 * i + 8 * r :=
      ⟨(o - t) / 3, (o - t) % 3, by omega, by omega⟩
    have hlt : i < (sortedOffs d).length := by omega
    obtain ⟨-, hs⟩ := h.size i hlt
    rw [ENTRY] at hs
    obtain rfl | rfl | rfl : r = 0 ∨ r = 1 ∨ r = 2 := by omega
    · exact hoff i hlt hi
    · rw [hi, show T + 24 * i + 8 * 1 + 8 = T + 24 * i + 16 by omega] at hdata
      omega
    · rw [hi, show T + 24 * i + 8 * 2 = T + 24 * i + 16 by omega] at hname
      omega

theorem Layout.item_eq_none (h : Layout d β T) {off : ℕ} (hmem : off ∈ range8 (d.length - ENTRY))
    (hoff : ∀ i < (sortedOffs d).length, off ≠ T + ENTRY * i) :
    item d (found d) β off = none := by
  obtain ⟨h8, hlt⟩ := mem_range8.mp hmem
  by_contra hne
  obtain ⟨x, hx⟩ := Option.ne_none_iff_exists'.mp hne
  obtain ⟨hres, hdata⟩ := resolves_of_item (by omega) hx
  by_cases hout : off + ENTRY ≤ T ∨ T + ENTRY * (sortedOffs d).length ≤ off
  · exact h.alone off h8 hout hres
  · rw [not_or, not_le, not_le] at hout
    exact h.not_straddling h8 hout.1 hout.2 hoff hres hdata

theorem Layout.item_table (h : Layout d β T) {i : ℕ} (hi : i < (sortedOffs d).length) {n : Text}
    (hn : (n, (sortedOffs d)[i]) ∈ found d) :
    item d (found d) β (T + ENTRY * i) = some (.blob n (entryData d β T i)) := by
  have hname := h.name_kernel i hi
  have hdata := h.data_kernel i hi
  obtain ⟨hle, hin⟩ := h.data_inside i hi
  have hinv : inv (found d) (u64 d (T + ENTRY * i) - β) = some n :=
    inv_eq_some_iff.mpr ⟨_, by rw [h.name i hi, add_sub_cancel_left], hn⟩
  rw [item]
  dsimp only
  rw [if_neg (by omega), hinv]
  dsimp only
  rw [if_neg (not_not.mpr (h.size i hi)), if_neg (by omega), entryData]

theorem filterMap_eq_of_subset {α : Type*} {f : ℕ → Option α} {l ts : List ℕ}
    (hl : l.Pairwise (· < ·)) (hts : ts.Pairwise (· < ·)) (hsub : ∀ t ∈ ts, t ∈ l)
    (hnone : ∀ x ∈ l, x ∉ ts → f x = none) : l.filterMap f = ts.filterMap f := by
  have hfilter : l.filter (ts.contains ·) = ts := by
    refine List.Pairwise.eq_of_mem_iff (hl.filter _) hts fun x => ?_
    rw [List.mem_filter, List.contains_iff_mem]
    exact ⟨And.right, fun hx => ⟨hsub x hx, hx⟩⟩
  rw [← hfilter, List.filterMap_filter]
  refine List.filterMap_congr fun x hx => ?_
  split_ifs with hmem
  · rfl
  · exact hnone x hx fun hin => hmem (List.contains_iff_mem.mpr hin)

theorem pairwise_range8 (stop : ℕ) : (range8 stop).Pairwise (· < ·) :=
  List.pairwise_map.mpr (List.pairwise_lt_range.imp fun h => by omega)

/-- The walk over the image reports the entries of the table and nothing else. -/
theorem items_of_layout (h : Layout d β T) :
    (range8 (d.length - ENTRY)).filterMap (item d (found d) β) =
      (List.range (sortedOffs d).length).map fun i => .blob (nameOf d i) (entryData d β T i) := by
  have hin := h.inside
  have h8 := h.aligned
  have hmul : ∀ i, T + ENTRY * i = T + 24 * i := fun _ => rfl
  rw [ENTRY] at hin
  have hwalk : (range8 (d.length - ENTRY)).filterMap (item d (found d) β) =
      ((List.range (sortedOffs d).length).map (T + ENTRY * ·)).filterMap (item d (found d) β) := by
    refine filterMap_eq_of_subset (pairwise_range8 _) ?_ ?_ fun off hoff hnot =>
      h.item_eq_none hoff fun i hi heq => hnot ?_
    · exact List.pairwise_map.mpr (List.pairwise_lt_range.imp fun hlt => by rw [hmul, hmul]; omega)
    · rintro off hoff
      obtain ⟨i, hi, rfl⟩ := List.mem_map.mp hoff
      rw [List.mem_range] at hi
      rw [mem_range8, ENTRY]
      exact ⟨by omega, by omega⟩
    · exact List.mem_map.mpr ⟨i, List.mem_range.mpr hi, heq.symm⟩
  rw [hwalk, List.filterMap_map]
  refine List.filterMap_eq_map_iff_forall_eq_some.mpr fun i hi => ?_
  have hi := List.mem_range.mp hi
  exact h.item_table hi ((mem_found_iff hi).mpr rfl)

/-- **The table is recovered.** Of an image with the table at `T`, the script settles on its bias
and writes one blob for each of its entries, under the name that the entry points to, with the bytes
that it points to. -/
theorem table_recovered (h : Layout d β T) :
    (∃ best, main d = .walked T best β
      ((List.range (sortedOffs d).length).map fun i => .blob (nameOf d i) (entryData d β T i))) ∧
    (sortedOffs d).length = (found d).length ∧
    (∀ i (hi : i < (sortedOffs d).length) n, (n, (sortedOffs d)[i]) ∈ found d ↔ n = nameOf d i) ∧
    ((List.range (sortedOffs d).length).map fun i => basename (nameOf d i)).Nodup := by
  have hmany := h.many
  have hin := h.inside
  rw [ENTRY] at hin
  refine ⟨⟨verify d (sortedOffs d) T β, ?_⟩, length_sortedOffs d, fun _ hi _ => mem_found_iff hi,
    ?_⟩
  · have hne : found d ≠ [] := fun hnil => by
      rw [length_sortedOffs, hnil] at hmany
      exact absurd hmany (by decide)
    have h8 := h.le_verify
    rw [main, if_neg hne, search_at_table h (by rw [ENTRY]; omega)]
    dsimp only
    rw [if_neg (by omega), items_of_layout h]
  · refine (List.nodup_map_iff_inj_on List.nodup_range).mpr fun i hi j hj heq => ?_
    have hi := List.mem_range.mp hi
    have hj := List.mem_range.mp hj
    have hoff := List.inj_on_of_nodup_map (nodup_found_basename d) ((mem_found_iff hi).mpr rfl)
      ((mem_found_iff hj).mpr rfl) heq
    exact ((pairwise_sortedOffs d).nodup.getElem_inj_iff).mp (congrArg Prod.snd hoff)

end Layout

/-- The bias of `mxoImage`. -/
def mxoBias : ℕ := 0xFFFF800000000000

/-- An image with a table of eight names of one length, at the offset 8. -/
def mxoImage : Bytes :=
  List.replicate 8 0 ++
    (List.range 8).flatMap (fun i =>
      toLE 8 (mxoBias + (200 + 20 * i)) ++ toLE 8 (mxoBias + 200) ++ toLE 8 (i + 1)) ++
    (((names.map basename).drop 1).take 8).flatMap fun n => Text.encode n ++ [0]

theorem sortedOffs_mxoImage : sortedOffs mxoImage = (List.range 8).map (200 + 20 * ·) := by
  have hfound : (found mxoImage).map Prod.snd = (List.range 8).map (200 + 20 * ·) := by
    decide +kernel
  have hlt : ((List.range 8).map (200 + 20 * ·)).Pairwise (· < ·) := by decide
  rw [sortedOffs, hfound, hlt.nodup.dedup]
  exact List.mergeSort_of_pairwise (by decide)

theorem layout_mxoImage : Layout mxoImage mxoBias 8 := by
  have hlen : (sortedOffs mxoImage).length = 8 := by rw [sortedOffs_mxoImage]; rfl
  have hentry : ∀ i < 8, u64 mxoImage (8 + ENTRY * i) = mxoBias + (200 + 20 * i) ∧
      u64 mxoImage (8 + ENTRY * i + 8) = mxoBias + 200 ∧
      u64 mxoImage (8 + ENTRY * i + 16) = i + 1 := by decide +kernel
  have htext : ∀ k < 45, 25 ≤ k → ¬ KERNEL ≤ u64 mxoImage (8 * k) := by decide +kernel
  have himage : mxoImage.length = 360 := by decide +kernel
  refine
    { aligned := by decide
      many := hlen.ge
      inside := ?_
      name := fun i hi => ?_
      name_kernel := fun i hi => ?_
      data_kernel := fun i hi => ?_
      size := fun i hi => ?_
      data_inside := fun i hi => ?_
      first := fun off h8 hlt b hall => ?_
      alone := fun off h8 hout hres => ?_ }
  · rw [hlen, himage]
    decide
  · have hoff : (sortedOffs mxoImage)[i] = 200 + 20 * i := by simp [sortedOffs_mxoImage]
    rw [hoff, (hentry i (hlen ▸ hi)).1]
    push_cast
    ring
  · rw [(hentry i (hlen ▸ hi)).1]
    exact (by decide : KERNEL ≤ mxoBias).trans (Nat.le_add_right _ _)
  · rw [(hentry i (hlen ▸ hi)).2.1]
    decide
  · rw [(hentry i (hlen ▸ hi)).2.2]
    omega
  · rw [(hentry i (hlen ▸ hi)).2.1, (hentry i (hlen ▸ hi)).2.2, himage]
    push_cast
    omega
  · obtain rfl : off = 0 := by omega
    exact absurd (hall 0 (by decide)).2.1 (by decide +kernel)
  · rw [hlen, ENTRY] at hout
    obtain ⟨k, rfl⟩ := h8
    have hle := hres.1
    rw [himage, ENTRY] at hle
    exact htext k (by omega) (by omega) hres.2.1

theorem table_recovered_mxoImage : Layout mxoImage mxoBias 8 ∧
    ∃ best, main mxoImage = .walked 8 best mxoBias
      ((List.range (sortedOffs mxoImage).length).map fun i =>
        .blob (nameOf mxoImage i) (entryData mxoImage mxoBias 8 i)) :=
  ⟨layout_mxoImage, (table_recovered layout_mxoImage).1⟩

end BuiltinFw

end PalmaEos
