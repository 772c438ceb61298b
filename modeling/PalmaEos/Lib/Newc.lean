import Mathlib.Data.Fintype.Basic
import PalmaEos.Lib.Hex

/-!
# The newc archive format

The cpio archives that an initial ramdisk is made of. A record is a header of 110 bytes — a magic
and thirteen numbers of eight hexadecimal digits — then the name with a closing zero, and the data,
each padded to a multiple of four bytes. The loader goes from one record to the next, to the end of
its input. Between records and behind them it skips zeros, those between records a multiple of
four. A record named `TRAILER!!!` closes an archive; the loader extracts nothing from it and goes
on, so a ramdisk may be several archives one behind the other, and the last needs no trailer.

`load` reads a ramdisk to its end or fails, and `Loads` is the relation it computes. Of several
records with one name the last counts: `fileMap`.

## Main results

* `readRecord_append` — reading a record depends on its own bytes only
* `load_eq_some` — the loader and the relation
* `Loads.append` — a ramdisk behind another one
* `fileMap_append`, `fileMap_filter` — later records override earlier ones
-/

namespace PalmaEos

namespace Newc

def MAGIC : Bytes := [0x30, 0x37, 0x30, 0x37, 0x30, 0x31]

def TRAILER : Bytes := [0x54, 0x52, 0x41, 0x49, 0x4C, 0x45, 0x52, 0x21, 0x21, 0x21]

/-- The next multiple of four. -/
def align4 (n : ℕ) : ℕ := n + (4 - n % 4) % 4

/-- A record: the numbers of its header, its name and its data. -/
structure Rec where
  header : Fin 13 → ℕ
  name : Bytes
  data : Bytes

instance : DecidableEq Rec := fun r r' =>
  decidable_of_iff (r.header = r'.header ∧ r.name = r'.name ∧ r.data = r'.data) <| by
    cases r
    cases r'
    rw [Rec.mk.injEq]

/-- Number `n` of the header. -/
def field (bs : Bytes) (n : ℕ) : ℕ := Hex.value (window bs (6 + n * 8) 8)

/-- Where the data of a record starts. -/
def dataOffset (namesize : ℕ) : ℕ := align4 (110 + namesize)

/-- Where a record ends. -/
def recordSize (filesize namesize : ℕ) : ℕ := align4 (dataOffset namesize + filesize)

/-- There is a whole record at the start of `bs`. -/
def StartsRecord (bs : Bytes) : Prop :=
  recordSize (field bs 6) (field bs 11) ≤ bs.length ∧ window bs 0 6 = MAGIC ∧
    Hex.IsHex (window bs 6 104) ∧ 0 < field bs 11 ∧ 0 ∉ window bs 110 (field bs 11 - 1) ∧
    bs[110 + (field bs 11 - 1)]? = some 0

instance (bs : Bytes) : Decidable (StartsRecord bs) := inferInstanceAs (Decidable (_ ∧ _))

/-- The record at the start of `bs`, and its size. -/
def readRecord (bs : Bytes) : Option (Rec × ℕ) :=
  if StartsRecord bs then
    some (⟨fun n => field bs n, window bs 110 (field bs 11 - 1),
      window bs (dataOffset (field bs 11)) (field bs 6)⟩, recordSize (field bs 6) (field bs 11))
  else none

/-- A record in front of what is extracted behind it. A trailer extracts nothing. -/
def Rec.onto (r : Rec) (rs : List Rec) : List Rec := if r.name = TRAILER then rs else r :: rs

/-- The loader: padding and a record, until nothing but padding is left. -/
def loadFrom : ℕ → Bytes → Option (List Rec)
  | 0, _ => none
  | fuel + 1, bs =>
    let next := bs.dropWhile (· = 0)
    if next = [] then some []
    else if (bs.length - next.length) % 4 ≠ 0 then none
    else (readRecord next).bind fun (r, n) => (loadFrom fuel (next.drop n)).map r.onto

/-- What the loader extracts from a ramdisk that it can read to its end. -/
def load (bs : Bytes) : Option (List Rec) := loadFrom (bs.length + 1) bs

/-- The ramdisk `bs` can be read to its end, and holds the records `rs`. -/
inductive Loads : Bytes → List Rec → Prop
  | padding {bs : Bytes} : (∀ b ∈ bs, b = 0) → Loads bs []
  | record {zeros next : Bytes} {r : Rec} {n : ℕ} {rs : List Rec} : (∀ b ∈ zeros, b = 0) →
      zeros.length % 4 = 0 → readRecord next = some (r, n) → Loads (next.drop n) rs →
      Loads (zeros ++ next) (r.onto rs)

/-- The records that stand one behind the other from the start, up to the first trailer. -/
def firstFrom : ℕ → Bytes → List Rec
  | 0, _ => []
  | fuel + 1, bs =>
    match readRecord bs with
    | none => []
    | some (r, n) => if r.name = TRAILER then [] else r :: firstFrom fuel (bs.drop n)

/-- The records of the first archive of a ramdisk. -/
def first (bs : Bytes) : List Rec := firstFrom bs.length bs

/-- What a path holds in the end: the last record of that name. -/
def fileMap (rs : List Rec) (path : Bytes) : Option Rec := (rs.filter (·.name = path)).getLast?

/-- The content of a path in the end. -/
def contents (rs : List Rec) (path : Bytes) : Option Bytes := (fileMap rs path).map Rec.data

/-! ### Records -/

section Records

variable {bs a b b' : Bytes} {r : Rec} {n : ℕ}

theorem align4_mod (n : ℕ) : align4 n % 4 = 0 := by
  rw [align4]
  omega

theorem le_align4 (n : ℕ) : n ≤ align4 n := Nat.le_add_right _ _

/-- Alignment from a multiple of four on. -/
theorem align4_add {m : ℕ} (hm : m % 4 = 0) (n : ℕ) : align4 (m + n) = m + align4 n := by
  rw [align4, align4]
  omega

theorem header_le_recordSize (filesize namesize : ℕ) :
    110 + namesize ≤ dataOffset namesize ∧
      dataOffset namesize + filesize ≤ recordSize filesize namesize :=
  ⟨le_align4 _, le_align4 _⟩

theorem readRecord_eq_some : readRecord bs = some (r, n) ↔ StartsRecord bs ∧
    r = ⟨fun i => field bs i, window bs 110 (field bs 11 - 1),
      window bs (dataOffset (field bs 11)) (field bs 6)⟩ ∧
    n = recordSize (field bs 6) (field bs 11) := by
  rw [readRecord, Option.ite_none_right_eq_some, Option.some.injEq, Prod.mk.injEq, eq_comm (a := r),
    eq_comm (a := n)]

/-- The size of a record is positive, a multiple of four, and no more than there is. -/
theorem size_of_readRecord (h : readRecord bs = some (r, n)) :
    110 < n ∧ n % 4 = 0 ∧ n ≤ bs.length := by
  obtain ⟨⟨hlen, -, -, hname, -⟩, -, rfl⟩ := readRecord_eq_some.mp h
  obtain ⟨hhead, hdata⟩ := header_le_recordSize (field bs 6) (field bs 11)
  exact ⟨by omega, align4_mod _, hlen⟩

/-- **Reading a record depends on its own bytes only.** -/
theorem readRecord_append (h : readRecord (a ++ b) = some (r, n)) (hn : n ≤ a.length) :
    readRecord (a ++ b') = some (r, n) := by
  obtain ⟨hstart, hr, hsize⟩ := readRecord_eq_some.mp h
  obtain ⟨hlen, hmagic, hhex, hpos, hzero, hnul⟩ := hstart
  obtain ⟨hhead, hdata⟩ := header_le_recordSize (field (a ++ b) 6) (field (a ++ b) 11)
  have hfield : ∀ i < 13, field (a ++ b') i = field (a ++ b) i := by
    intro i hi
    rw [field, field, window_append_left (by omega), window_append_left (by omega)]
  have hwindow : ∀ m k, m + k ≤ n → window (a ++ b') m k = window (a ++ b) m k := by
    intro m k hmk
    rw [window_append_left (by omega), window_append_left (by omega)]
  rw [readRecord_eq_some, StartsRecord, hfield 6 (by omega), hfield 11 (by omega),
    hwindow 0 6 (by omega), hwindow 6 104 (by omega), hwindow 110 _ (by omega),
    hwindow _ _ (by omega), hr]
  refine ⟨⟨?_, hmagic, hhex, hpos, hzero, ?_⟩, ?_, hsize⟩
  · rw [List.length_append]
    omega
  · rw [List.getElem?_append_left (by omega)] at hnul ⊢
    exact hnul
  · congr 1
    funext i
    exact (hfield i i.isLt).symm

end Records

/-! ### The loader -/

section Load

variable {bs a b : Bytes} {r : Rec} {rs rs' : List Rec} {n : ℕ}

@[simp] theorem Rec.onto_of_trailer (h : r.name = TRAILER) : r.onto rs = rs := if_pos h

theorem Rec.onto_of_ne (h : r.name ≠ TRAILER) : r.onto rs = r :: rs := if_neg h

theorem Rec.onto_append : r.onto (rs ++ rs') = r.onto rs ++ rs' := by
  rw [onto, onto]
  split_ifs <;> rfl

/-- A record starts with a magic, and not with padding. -/
theorem dropWhile_of_readRecord (h : readRecord bs = some (r, n)) :
    bs ≠ [] ∧ bs.dropWhile (· = 0) = bs := by
  obtain ⟨⟨-, hmagic, -⟩, -⟩ := readRecord_eq_some.mp h
  rcases bs with _ | ⟨b, bs⟩
  · cases hmagic
  · obtain rfl : b = 0x30 := (List.cons.inj hmagic).1
    exact ⟨List.cons_ne_nil _ _, rfl⟩

theorem dropWhile_zeros {zeros : Bytes} (next : Bytes) (h : ∀ b ∈ zeros, b = 0) :
    (zeros ++ next).dropWhile (· = 0) = next.dropWhile (· = 0) :=
  List.dropWhile_append_of_pos (by simpa using h)

theorem Loads.of_loadFrom {fuel : ℕ} (h : loadFrom fuel bs = some rs) : Loads bs rs := by
  induction fuel generalizing bs rs with
  | zero => cases h
  | succ fuel ih =>
    rw [loadFrom] at h
    dsimp only at h
    have hzeros : ∀ b ∈ bs.takeWhile (· = 0), b = 0 :=
      fun b hb => of_decide_eq_true (List.all_eq_true.mp List.all_takeWhile b hb)
    have hsplit := List.takeWhile_append_dropWhile (p := (· = (0 : UInt8))) (l := bs)
    generalize bs.takeWhile (· = 0) = zeros at hzeros hsplit
    generalize bs.dropWhile (· = 0) = next at h hsplit
    subst hsplit
    split_ifs at h with hnext hmod
    · obtain rfl := Option.some.inj h
      rw [hnext, List.append_nil]
      exact .padding hzeros
    · obtain ⟨⟨r, n⟩, hread, h⟩ := Option.bind_eq_some_iff.mp h
      obtain ⟨rs', hrest, rfl⟩ := Option.map_eq_some_iff.mp h
      rw [List.length_append, Nat.add_sub_cancel, not_not] at hmod
      exact .record hzeros hmod hread (ih hrest)

theorem Loads.loadFrom (h : Loads bs rs) {fuel : ℕ} (hfuel : bs.length < fuel) :
    loadFrom fuel bs = some rs := by
  induction h generalizing fuel with
  | padding hzeros =>
    obtain ⟨fuel, rfl⟩ : ∃ m, fuel = m + 1 := ⟨fuel - 1, by omega⟩
    have hnil := dropWhile_zeros [] hzeros
    rw [List.append_nil, List.dropWhile_nil] at hnil
    rw [Newc.loadFrom, hnil]
    exact if_pos rfl
  | record hzeros hmod hread _ ih =>
    obtain ⟨fuel, rfl⟩ : ∃ m, fuel = m + 1 := ⟨fuel - 1, by omega⟩
    obtain ⟨hne, hdrop⟩ := dropWhile_of_readRecord hread
    have hpos := (size_of_readRecord hread).1
    have hlen := List.length_pos_iff.mpr hne
    rw [List.length_append] at hfuel
    rw [Newc.loadFrom, dropWhile_zeros _ hzeros, hdrop]
    dsimp only
    rw [if_neg hne, if_neg (by rw [List.length_append]; omega), hread, Option.bind_some]
    dsimp only
    rw [ih (by rw [List.length_drop]; omega), Option.map_some]

/-- **The loader and the relation.** -/
theorem load_eq_some : load bs = some rs ↔ Loads bs rs :=
  ⟨Loads.of_loadFrom, fun h => h.loadFrom (Nat.lt_succ_self _)⟩

theorem Loads.unique (h : Loads bs rs) (h' : Loads bs rs') : rs = rs' :=
  Option.some.inj ((load_eq_some.mpr h).symm.trans (load_eq_some.mpr h'))

/-- Padding in front of a ramdisk. -/
theorem Loads.padded (h : Loads bs rs) {zeros : Bytes} (hzeros : ∀ b ∈ zeros, b = 0)
    (hmod : zeros.length % 4 = 0) : Loads (zeros ++ bs) rs := by
  cases h with
  | padding hbs =>
    refine .padding fun b hb => ?_
    rcases List.mem_append.mp hb with hb | hb
    · exact hzeros b hb
    · exact hbs b hb
  | @record zeros' next r n rs hzeros' hmod' hread hrest =>
    rw [← List.append_assoc]
    refine .record (fun b hb => ?_) (by rw [List.length_append]; omega) hread hrest
    rcases List.mem_append.mp hb with hb | hb
    · exact hzeros b hb
    · exact hzeros' b hb

/-- **A ramdisk behind another one**: the records of both. -/
theorem Loads.append (ha : Loads a rs) (hmod : a.length % 4 = 0) (hb : Loads b rs') :
    Loads (a ++ b) (rs ++ rs') := by
  induction ha with
  | padding hzeros => exact hb.padded hzeros hmod
  | @record zeros next r n rs hzeros hmod' hread _ ih =>
    obtain ⟨-, hn, hle⟩ := size_of_readRecord hread
    rw [List.length_append] at hmod
    have hread' : readRecord (next ++ b) = some (r, n) := by
      rw [← List.append_nil next] at hread
      exact readRecord_append hread hle
    have hdrop : (next ++ b).drop n = next.drop n ++ b := List.drop_append_of_le_length hle
    rw [List.append_assoc, ← Rec.onto_append]
    refine .record hzeros hmod' hread' ?_
    rw [hdrop]
    exact ih (by rw [List.length_drop]; omega)

/-- A record in front of a ramdisk. -/
theorem Loads.cons (h : readRecord (a ++ b) = some (r, a.length)) (hb : Loads b rs) :
    Loads (a ++ b) (r.onto rs) := by
  rw [← List.nil_append (a ++ b)]
  refine .record (fun _ hx => absurd hx List.not_mem_nil) rfl h ?_
  rwa [List.drop_left]

/-- What a ramdisk is that starts with a record. -/
theorem Loads.of_readRecord (h : Loads bs rs) (hread : readRecord bs = some (r, n)) :
    ∃ rs', Loads (bs.drop n) rs' ∧ rs = r.onto rs' := by
  cases h with
  | padding hzeros =>
    obtain ⟨hne, hdrop⟩ := dropWhile_of_readRecord hread
    have hnil := dropWhile_zeros [] hzeros
    rw [List.append_nil, List.dropWhile_nil, hdrop] at hnil
    exact absurd hnil hne
  | @record zeros next r' n' rs' hzeros _ hread' hrest =>
    have hskip := dropWhile_zeros next hzeros
    rw [(dropWhile_of_readRecord hread).2, (dropWhile_of_readRecord hread').2] at hskip
    obtain rfl : zeros = [] := List.append_left_eq_self.mp hskip
    rw [List.nil_append] at hread
    obtain ⟨rfl, rfl⟩ := Prod.mk.inj (Option.some.inj (hread.symm.trans hread'))
    exact ⟨rs', hrest, rfl⟩

/-- What a ramdisk is that does not start with a record. -/
theorem Loads.head_eq_zero (h : Loads bs rs) (hread : readRecord bs = none) :
    bs = [] ∨ ∃ bs', bs = 0 :: bs' := by
  cases h with
  | padding hzeros =>
    rcases bs with _ | ⟨b, bs⟩
    · exact Or.inl rfl
    · exact Or.inr ⟨bs, by rw [hzeros b List.mem_cons_self]⟩
  | @record zeros next r n rs hzeros _ hread' _ =>
    rcases zeros with _ | ⟨b, zeros⟩
    · rw [List.nil_append, hread'] at hread
      cases hread
    · exact Or.inr ⟨zeros ++ next, by rw [hzeros b List.mem_cons_self, List.cons_append]⟩

end Load

/-! ### The first archive -/

section First

variable {bs : Bytes} {r : Rec} {n : ℕ}

theorem firstFrom_eq {fuel m : ℕ} (hfuel : bs.length ≤ fuel) (hm : bs.length ≤ m) :
    firstFrom fuel bs = firstFrom m bs := by
  have hempty : readRecord ([] : Bytes) = none := by decide
  induction fuel generalizing bs m with
  | zero =>
    obtain rfl := List.eq_nil_of_length_eq_zero (Nat.le_zero.mp hfuel)
    rcases m with _ | m
    · rfl
    · rw [firstFrom, firstFrom, hempty]
  | succ fuel ih =>
    rcases m with _ | m
    · obtain rfl := List.eq_nil_of_length_eq_zero (Nat.le_zero.mp hm)
      rw [firstFrom, firstFrom, hempty]
    · rw [firstFrom, firstFrom]
      rcases hread : readRecord bs with _ | ⟨r, n⟩
      · rfl
      · have hsize := size_of_readRecord hread
        dsimp only
        rw [ih (m := m) (by rw [List.length_drop]; omega) (by rw [List.length_drop]; omega)]

theorem first_of_none (h : readRecord bs = none) : first bs = [] := by
  rw [first]
  rcases bs.length with _ | m
  · rfl
  · rw [firstFrom, h]

theorem first_of_readRecord (h : readRecord bs = some (r, n)) :
    first bs = if r.name = TRAILER then [] else r :: first (bs.drop n) := by
  have hsize := size_of_readRecord h
  obtain ⟨m, hm⟩ : ∃ m, bs.length = m + 1 := ⟨bs.length - 1, by omega⟩
  rw [first, hm, firstFrom, h]
  dsimp only
  rw [first, firstFrom_eq (by rw [List.length_drop]; omega) le_rfl]

/-- The records of the first archive are among those of the ramdisk. -/
theorem Loads.first_subset {rs : List Rec} (h : Loads bs rs) : first bs ⊆ rs := by
  induction hlen : bs.length using Nat.strong_induction_on generalizing bs rs with
  | _ len ih =>
    rcases hread : readRecord bs with _ | ⟨r, n⟩
    · rw [first_of_none hread]
      exact List.nil_subset rs
    · obtain ⟨rs', hrest, rfl⟩ := h.of_readRecord hread
      have hsize := size_of_readRecord hread
      rw [first_of_readRecord hread]
      split_ifs with htrailer
      · exact List.nil_subset _
      · rw [Rec.onto_of_ne htrailer]
        exact List.cons_subset_cons r (ih _ (by rw [List.length_drop]; omega) hrest rfl)

end First

/-! ### File maps -/

section FileMap

variable {rs rs' : List Rec} {path : Bytes}

/-- Later records override earlier ones. -/
theorem fileMap_append : fileMap (rs ++ rs') path = (fileMap rs' path).or (fileMap rs path) := by
  rw [fileMap, fileMap, fileMap, List.filter_append, List.getLast?_append]

theorem fileMap_singleton (r : Rec) :
    fileMap [r] path = if r.name = path then some r else none := by
  by_cases h : r.name = path <;> simp [fileMap, h]

theorem contents_append :
    contents (rs ++ rs') path = (contents rs' path).or (contents rs path) := by
  rw [contents, contents, contents, fileMap_append]
  cases fileMap rs' path <;> rfl

theorem contents_singleton (r : Rec) :
    contents [r] path = if r.name = path then some r.data else none := by
  rw [contents, fileMap_singleton]
  split_ifs <;> rfl

end FileMap

end Newc

end PalmaEos
