import Mathlib.Data.List.Basic
import Mathlib.Tactic.Ring

/-!
# Byte strings: windows, fixed-width fields and Python slices

Everything a binary format reader does to a byte string, over plain lists: take a *window* of
`n` bytes at an offset, read a little-endian number out of it, overwrite a window in place
(`splice`). On top of these stand the three primitives of Python that the scripts are written
in, with their behaviour on negative arguments and short buffers:

* `pySlice d i j` is `d[i:j]`;
* `bufferAt d off n` is the buffer check of `struct.unpack_from`;
* `packInto d off fields` is `struct.pack_into` on a `bytearray`.

## Main results

* `ofLE_toLE` — the fixed-width encoding is read back
* `window_splice_self`, `window_splice_of_disjoint` — read after write
* `records_flatten` — a table of fixed-size records read back
* `pySlice_natCast`, `bufferAt_natCast` — on natural arguments the Python primitives are windows
-/

namespace PalmaEos

/-- A byte string. -/
abbrev Bytes := List UInt8

variable {α : Type*}

/-! ### Windows -/

/-- The `n` elements of `d` from offset `a` on, fewer where `d` ends earlier. -/
def window (d : List α) (a n : ℕ) : List α := (d.drop a).take n

@[simp] theorem length_window (d : List α) (a n : ℕ) :
    (window d a n).length = min n (d.length - a) := by
  simp [window]

theorem length_window_of_le {d : List α} {a n : ℕ} (h : a + n ≤ d.length) :
    (window d a n).length = n := by
  rw [length_window]
  omega

theorem getElem?_window (d : List α) (a n i : ℕ) :
    (window d a n)[i]? = if i < n then d[a + i]? else none := by
  rw [window, List.getElem?_take, List.getElem?_drop]

@[simp] theorem window_zero_length (d : List α) : window d 0 d.length = d := by
  simp [window]

theorem window_window {d : List α} {a n b m : ℕ} (h : b + m ≤ n) :
    window (window d a n) b m = window d (a + b) m := by
  simp only [window, List.drop_take, List.drop_drop, List.take_take]
  congr 1
  omega

theorem window_drop (d : List α) (b a n : ℕ) : window (d.drop b) a n = window d (b + a) n := by
  rw [window, window, List.drop_drop]

theorem window_append_left {d e : List α} {a n : ℕ} (h : a + n ≤ d.length) :
    window (d ++ e) a n = window d a n := by
  rw [window, window, List.drop_append_of_le_length (by omega), List.take_append_of_le_length]
  rw [List.length_drop]
  omega

theorem window_append_right (d e : List α) (a n : ℕ) :
    window (d ++ e) (d.length + a) n = window e a n := by
  rw [window, window, List.drop_append, List.drop_eq_nil_of_le (by omega), List.nil_append,
    Nat.add_sub_cancel_left]

/-- What stands between other elements. -/
theorem window_of_parts {d pre mid post : List α} {a : ℕ} (h : d = pre ++ (mid ++ post))
    (ha : pre.length = a) : window d a mid.length = mid := by
  rw [h, ← ha, ← Nat.add_zero pre.length, window_append_right, window_append_left (by omega),
    window_zero_length]

/-- The start of a window that is known. -/
theorem window_shorter {d e : List α} {a n m : ℕ} (h : window d a n = e) (hm : m ≤ n) :
    window d a m = e.take m := by
  rw [← h, window, window, List.take_take, Nat.min_eq_left hm]

theorem take_window (d : List α) {a n m : ℕ} (h : m ≤ n) :
    (window d a n).take m = window d a m := by
  rw [window, window, List.take_take, Nat.min_eq_left h]

theorem drop_window (d : List α) (a n m : ℕ) :
    (window d a n).drop m = window d (a + m) (n - m) := by
  rw [window, window, List.drop_take, List.drop_drop]

theorem window_congr {d e : List α} {a n : ℕ} (h : ∀ i, a ≤ i → i < a + n → d[i]? = e[i]?) :
    window d a n = window e a n := by
  refine List.ext_getElem? ?_
  intro i
  rw [getElem?_window, getElem?_window]
  split_ifs with hi
  · exact h _ (by omega) (by omega)
  · rfl

theorem window_map {β : Type*} (f : α → β) (d : List α) (a n : ℕ) :
    window (d.map f) a n = (window d a n).map f := by
  rw [window, window, List.map_take, List.map_drop]

/-- Two windows that touch join into one. -/
theorem window_append_window (d : List α) (a n m : ℕ) :
    window d a n ++ window d (a + n) m = window d a (n + m) := by
  rw [window, window, window, List.take_add, List.drop_drop]

/-- Two pieces that are the same in both, side by side. -/
theorem window_add_congr {d e : List α} {a b n m : ℕ} (h : window d a n = window e b n)
    (h' : window d (a + n) m = window e (b + n) m) :
    window d a (n + m) = window e b (n + m) := by
  rw [← window_append_window, ← window_append_window, h, h']

/-! ### Writing a window in place -/

/-- `d` with the bytes from offset `a` on replaced by `bs`, in place. -/
def splice (d : List α) (a : ℕ) (bs : List α) : List α :=
  d.take a ++ bs ++ d.drop (a + bs.length)

theorem length_splice {d bs : List α} {a : ℕ} (h : a + bs.length ≤ d.length) :
    (splice d a bs).length = d.length := by
  simp only [splice, List.length_append, List.length_take, List.length_drop]
  omega

theorem getElem?_splice {d bs : List α} {a : ℕ} (h : a + bs.length ≤ d.length) (i : ℕ) :
    (splice d a bs)[i]? = if a ≤ i ∧ i < a + bs.length then bs[i - a]? else d[i]? := by
  have hlen : (d.take a).length = a := by rw [List.length_take]; omega
  rcases Nat.lt_or_ge i a with hi | hi
  · rw [if_neg (by omega), splice, List.append_assoc, List.getElem?_append_left (by omega),
      List.getElem?_take, if_pos hi]
  · rw [splice, List.append_assoc, List.getElem?_append_right (by omega), hlen]
    rcases Nat.lt_or_ge i (a + bs.length) with hb | hb
    · rw [if_pos ⟨hi, hb⟩, List.getElem?_append_left (by omega)]
    · rw [if_neg (by omega), List.getElem?_append_right (by omega), List.getElem?_drop,
        show a + bs.length + (i - a - bs.length) = i by omega]

theorem drop_splice {d bs : List α} {a b : ℕ} (h : a + bs.length ≤ d.length)
    (hb : a + bs.length ≤ b) : (splice d a bs).drop b = d.drop b := by
  refine List.ext_getElem? ?_
  intro i
  rw [List.getElem?_drop, List.getElem?_drop, getElem?_splice h, if_neg (by omega)]

theorem take_splice {d bs : List α} {a n : ℕ} (h : a + bs.length ≤ d.length)
    (hn : n ≤ a) : (splice d a bs).take n = d.take n := by
  rw [splice, List.append_assoc, List.take_append_of_le_length (by rw [List.length_take]; omega),
    List.take_take, min_eq_left hn]

/-- Writing into a prefix. -/
theorem take_splice_of_le {d bs : List α} {a n : ℕ} (h : a + bs.length ≤ d.length)
    (hn : a + bs.length ≤ n) : (splice d a bs).take n = splice (d.take n) a bs := by
  refine List.ext_getElem? ?_
  intro i
  rw [getElem?_splice (by rw [List.length_take]; omega), List.getElem?_take, List.getElem?_take,
    getElem?_splice h]
  split_ifs <;> first | rfl | omega

/-- Writing into the first of two parts. -/
theorem splice_append_left {d e bs : List α} {a : ℕ} (h : a + bs.length ≤ d.length) :
    splice (d ++ e) a bs = splice d a bs ++ e := by
  rw [splice, splice, List.take_append_of_le_length (by omega),
    List.drop_append_of_le_length (by omega), List.append_assoc (d.take a ++ bs)]

/-- **Read what was written.** -/
theorem window_splice_self {d bs : List α} {a : ℕ} (h : a + bs.length ≤ d.length) :
    window (splice d a bs) a bs.length = bs := by
  refine List.ext_getElem? ?_
  intro i
  rw [getElem?_window, getElem?_splice h]
  rcases Nat.lt_or_ge i bs.length with hi | hi
  · rw [if_pos hi, if_pos (by omega), Nat.add_sub_cancel_left]
  · rw [if_neg (by omega), List.getElem?_eq_none hi]

/-- **Read elsewhere.** -/
theorem window_splice_of_disjoint {d bs : List α} {a b n : ℕ} (h : a + bs.length ≤ d.length)
    (hd : b + n ≤ a ∨ a + bs.length ≤ b) : window (splice d a bs) b n = window d b n := by
  refine List.ext_getElem? ?_
  intro i
  rw [getElem?_window, getElem?_window]
  rcases Nat.lt_or_ge i n with hi | hi
  · rw [if_pos hi, if_pos hi, getElem?_splice h, if_neg (by omega)]
  · rw [if_neg (by omega), if_neg (by omega)]

/-- Two pieces written side by side, the second one behind the first. -/
theorem splice_splice_right (d bs cs : List α) {a : ℕ} (h : a + bs.length + cs.length ≤ d.length) :
    splice (splice d a bs) (a + bs.length) cs = splice d a (bs ++ cs) := by
  refine List.ext_getElem? ?_
  intro i
  rw [getElem?_splice (by rw [length_splice (by omega)]; omega), getElem?_splice (by omega),
    getElem?_splice (by rw [List.length_append]; omega), List.length_append, List.getElem?_append]
  split_ifs <;> first | rfl | omega | (congr 1; omega)

/-- Two pieces written side by side, the second one before the first. -/
theorem splice_splice_left (d bs cs : List α) {a : ℕ} (h : a + bs.length + cs.length ≤ d.length) :
    splice (splice d (a + bs.length) cs) a bs = splice d a (bs ++ cs) := by
  refine List.ext_getElem? ?_
  intro i
  rw [getElem?_splice (by rw [length_splice (by omega)]; omega), getElem?_splice (by omega),
    getElem?_splice (by rw [List.length_append]; omega), List.length_append, List.getElem?_append]
  split_ifs <;> first | rfl | omega | (congr 1; omega)

/-- Two pieces written apart, in either order. -/
theorem splice_comm (d bs cs : List α) {a b : ℕ} (h : a + bs.length ≤ b)
    (hlen : b + cs.length ≤ d.length) :
    splice (splice d a bs) b cs = splice (splice d b cs) a bs := by
  refine List.ext_getElem? ?_
  intro i
  rw [getElem?_splice (by rw [length_splice (by omega)]; omega), getElem?_splice (by omega),
    getElem?_splice (by rw [length_splice (by omega)]; omega), getElem?_splice hlen]
  split_ifs <;> first | rfl | omega

/-- What is written over. -/
theorem splice_splice_self {d bs cs : List α} {a : ℕ} (hlen : bs.length = cs.length)
    (h : a + cs.length ≤ d.length) : splice (splice d a bs) a cs = splice d a cs := by
  refine List.ext_getElem? ?_
  intro i
  rw [getElem?_splice (by rw [length_splice (by omega)]; omega), getElem?_splice (by omega),
    getElem?_splice h]
  split_ifs <;> first | rfl | omega

/-! ### Little-endian fields -/

/-- The `w` little-endian bytes of `n`; higher bits are dropped. -/
def toLE : ℕ → ℕ → Bytes
  | 0, _ => []
  | w + 1, n => UInt8.ofNat (n % 256) :: toLE w (n / 256)

/-- The number with the given little-endian bytes. -/
def ofLE : Bytes → ℕ
  | [] => 0
  | b :: bs => b.toNat + 256 * ofLE bs

@[simp] theorem length_toLE (w n : ℕ) : (toLE w n).length = w := by
  induction w generalizing n with
  | zero => rfl
  | succ w ih => rw [toLE, List.length_cons, ih]

theorem ofLE_toLE {w n : ℕ} (h : n < 256 ^ w) : ofLE (toLE w n) = n := by
  induction w generalizing n with
  | zero => rw [toLE, ofLE]; omega
  | succ w ih =>
    have hdiv : n / 256 < 256 ^ w := by
      refine Nat.div_lt_of_lt_mul ?_
      rwa [pow_succ'] at h
    have hlow : (UInt8.ofNat (n % 256)).toNat = n % 256 := by simp
    rw [toLE, ofLE, ih hdiv, hlow]
    omega

/-- Bytes of one length are determined by the number they stand for. -/
theorem ofLE_injective : ∀ {bs cs : Bytes}, bs.length = cs.length → ofLE bs = ofLE cs → bs = cs
  | [], [], _, _ => rfl
  | b :: bs, c :: cs, hlen, h => by
    rw [ofLE, ofLE] at h
    have hb := b.toNat_lt
    have hc := c.toNat_lt
    have hlow : b.toNat = c.toNat := by omega
    rw [UInt8.toNat_inj.mp hlow, ofLE_injective (Nat.succ.inj hlen) (by omega)]

/-- The little-endian number in the `w` bytes of `d` at offset `a`. -/
def leAt (w : ℕ) (d : Bytes) (a : ℕ) : ℕ := ofLE (window d a w)

theorem window_eq_of_leAt {d e : Bytes} {a b w : ℕ} (ha : a + w ≤ d.length)
    (hb : b + w ≤ e.length) (h : leAt w d a = leAt w e b) : window d a w = window e b w :=
  ofLE_injective (by rw [length_window_of_le ha, length_window_of_le hb]) h

theorem leAt_replicate_zero (w n a : ℕ) : leAt w (List.replicate n 0) a = 0 := by
  rw [leAt, window, List.drop_replicate, List.take_replicate]
  generalize min w (n - a) = k
  induction k with
  | zero => rfl
  | succ k ih =>
    rw [List.replicate_succ, ofLE, ih]
    rfl

theorem leAt_window {w : ℕ} {d : Bytes} {a n b : ℕ} (h : b + w ≤ n) :
    leAt w (window d a n) b = leAt w d (a + b) := by
  rw [leAt, leAt, window_window h]

theorem leAt_append_left {w : ℕ} {d e : Bytes} {a : ℕ} (h : a + w ≤ d.length) :
    leAt w (d ++ e) a = leAt w d a := by
  rw [leAt, leAt, window_append_left h]

theorem leAt_append_right (w : ℕ) (d e : Bytes) (a : ℕ) :
    leAt w (d ++ e) (d.length + a) = leAt w e a := by
  rw [leAt, leAt, window_append_right]

theorem leAt_toLE {w v : ℕ} (h : v < 256 ^ w) : leAt w (toLE w v) 0 = v := by
  rw [leAt, window, List.drop_zero, List.take_of_length_le (by rw [length_toLE]), ofLE_toLE h]

/-- The first field of what was packed. -/
theorem leAt_toLE_append {w v : ℕ} (h : v < 256 ^ w) (rest : Bytes) :
    leAt w (toLE w v ++ rest) 0 = v := by
  have hwin : window (toLE w v ++ rest) 0 w = toLE w v := by
    rw [window_append_left (by rw [length_toLE, Nat.zero_add])]
    nth_rewrite 2 [← length_toLE w v]
    exact window_zero_length _
  rw [leAt, hwin, ofLE_toLE h]

/-- Reading one of a row of numbers. -/
theorem leAt_flatMap_toLE {w : ℕ} : ∀ {ns : List ℕ} {i n : ℕ}, ns[i]? = some n → n < 256 ^ w →
    leAt w (ns.flatMap (toLE w)) (w * i) = n
  | k :: ns, 0, n, h, hn => by
    obtain rfl := Option.some.inj h
    rw [List.flatMap_cons, Nat.mul_zero, leAt_toLE_append hn]
  | k :: ns, i + 1, n, h, hn => by
    have hskip := leAt_append_right w (toLE w k) (ns.flatMap (toLE w)) (w * i)
    rw [length_toLE] at hskip
    rw [List.flatMap_cons, Nat.mul_succ, Nat.add_comm, hskip,
      leAt_flatMap_toLE (show ns[i]? = some n from h) hn]

theorem leAt_splice_of_disjoint {w : ℕ} {d bs : Bytes} {a b : ℕ} (h : a + bs.length ≤ d.length)
    (hd : b + w ≤ a ∨ a + bs.length ≤ b) : leAt w (splice d a bs) b = leAt w d b := by
  rw [leAt, leAt, window_splice_of_disjoint h hd]

theorem leAt_splice_inside {w : ℕ} {d bs : Bytes} {a b : ℕ} (h : a + bs.length ≤ d.length)
    (hb : b + w ≤ bs.length) : leAt w (splice d a bs) (a + b) = leAt w bs b := by
  rw [← leAt_window hb, window_splice_self h]

/-! ### Tables of fixed-size records -/

/-- The `num` records of `sz` elements from offset `start` on. -/
def records (d : List α) (start sz num : ℕ) : List (List α) :=
  (List.range num).map fun i => window d (start + i * sz) sz

/-- A table inside `d` has records of full size. -/
theorem length_of_mem_records {d r : List α} {start sz num : ℕ}
    (h : start + num * sz ≤ d.length) (hr : r ∈ records d start sz num) : r.length = sz := by
  obtain ⟨i, hi, rfl⟩ := List.mem_map.mp hr
  refine length_window_of_le ?_
  have : (i + 1) * sz ≤ num * sz := Nat.mul_le_mul_right _ (List.mem_range.mp hi)
  rw [Nat.succ_mul] at this
  omega

theorem records_succ (d : List α) (start sz num : ℕ) :
    records d start sz (num + 1) = window d start sz :: records d (start + sz) sz num := by
  rw [records, records, List.range_succ_eq_map, List.map_cons, List.map_map, Nat.zero_mul,
    Nat.add_zero]
  refine congrArg _ (List.map_congr_left fun i _ => ?_)
  rw [Function.comp_apply, Nat.succ_mul, Nat.add_assoc, Nat.add_comm sz]

/-- A table is its records, one after another. -/
theorem flatten_records (d : List α) (sz : ℕ) :
    ∀ (start num : ℕ), (records d start sz num).flatten = window d start (num * sz)
  | start, 0 => by rw [Nat.zero_mul, window, List.take_zero]; rfl
  | start, num + 1 => by
    rw [records_succ, List.flatten_cons, flatten_records d sz (start + sz) num,
      window_append_window, Nat.succ_mul, Nat.add_comm sz]

/-- The records of a table are those of the window that holds it. -/
theorem records_window {d : List α} {start sz num a n : ℕ} (h : start + num * sz ≤ n) :
    records (window d a n) start sz num = records d (a + start) sz num := by
  refine List.map_congr_left ?_
  intro i hi
  have : (i + 1) * sz ≤ num * sz := Nat.mul_le_mul_right _ (List.mem_range.mp hi)
  rw [Nat.succ_mul] at this
  rw [window_window (by omega), Nat.add_assoc]

/-- **Reading a table that was written**, between whatever stands before and after it. -/
theorem records_flatten {sz : ℕ} : ∀ {L : List (List α)} (pre post : List α),
    (∀ r ∈ L, r.length = sz) → records (pre ++ L.flatten ++ post) pre.length sz L.length = L
  | [], _, _, _ => rfl
  | r :: L, pre, post, h => by
    have hr : r.length = sz := h r List.mem_cons_self
    have hsplit : pre ++ (r :: L).flatten ++ post = pre ++ r ++ L.flatten ++ post := by
      rw [List.flatten_cons, ← List.append_assoc]
    have hpre : pre.length + sz = (pre ++ r).length := by rw [List.length_append, hr]
    have hfirst : window (pre ++ (r :: L).flatten ++ post) (pre.length + 0) sz = r := by
      rw [List.append_assoc, window_append_right, List.flatten_cons, List.append_assoc,
        window_append_left (by omega), ← hr, window_zero_length]
    rw [List.length_cons, records_succ, ← Nat.add_zero pre.length, hfirst, Nat.add_zero, hsplit,
      hpre, records_flatten _ _ fun x hx => h x (List.mem_cons_of_mem _ hx)]

theorem length_flatten_of_forall {sz : ℕ} : ∀ {L : List (List α)}, (∀ r ∈ L, r.length = sz) →
    L.flatten.length = L.length * sz
  | [], _ => by rw [List.flatten_nil, List.length_nil, List.length_nil, Nat.zero_mul]
  | r :: L, h => by
    rw [List.flatten_cons, List.length_append, h r List.mem_cons_self, List.length_cons,
      Nat.succ_mul, length_flatten_of_forall fun x hx => h x (List.mem_cons_of_mem _ hx),
      Nat.add_comm]

theorem length_flatten_le {sz : ℕ} : ∀ {L : List (List α)}, (∀ r ∈ L, r.length ≤ sz) →
    L.flatten.length ≤ L.length * sz
  | [], _ => by rw [List.flatten_nil, List.length_nil]; exact Nat.zero_le _
  | r :: L, h => by
    have ih := length_flatten_le fun x hx => h x (List.mem_cons_of_mem _ hx)
    have hr := h r List.mem_cons_self
    rw [List.flatten_cons, List.length_append, List.length_cons, Nat.succ_mul]
    omega

/-- Records of at most `sz` elements that are as long together as records of `sz` elements. -/
theorem forall_length_of_flatten {sz : ℕ} : ∀ {L : List (List α)}, (∀ r ∈ L, r.length ≤ sz) →
    L.length * sz ≤ L.flatten.length → ∀ r ∈ L, r.length = sz
  | [], _, _ => by simp
  | r :: L, h, hlen => by
    have htail := fun x hx => h x (List.mem_cons_of_mem _ hx)
    have hle := length_flatten_le htail
    have hr := h r List.mem_cons_self
    rw [List.flatten_cons, List.length_append, List.length_cons, Nat.succ_mul] at hlen
    exact List.forall_mem_cons.mpr ⟨by omega, forall_length_of_flatten htail (by omega)⟩

/-! ### Python slices -/

/-- Where Python puts the slice bound `i` in a sequence of length `n`: a negative bound counts
from the end, and both kinds are clamped to the sequence. -/
def sliceBound (n : ℕ) (i : ℤ) : ℕ := if i < 0 then (i + n).toNat else min i.toNat n

/-- Python's `d[i:j]`. -/
def pySlice (d : List α) (i j : ℤ) : List α :=
  (d.take (sliceBound d.length j)).drop (sliceBound d.length i)

theorem sliceBound_natCast (n a : ℕ) : sliceBound n (a : ℤ) = min a n := by
  rw [sliceBound, if_neg (by omega), Int.toNat_natCast]

theorem pySlice_natCast (d : List α) (a b : ℕ) :
    pySlice d (a : ℤ) (b : ℤ) = window d a (b - a) := by
  rw [pySlice, sliceBound_natCast, sliceBound_natCast, window, List.drop_take]
  refine List.ext_getElem? ?_
  intro i
  simp only [List.getElem?_take, List.getElem?_drop]
  rcases Nat.lt_or_ge (a + i) d.length with h | h
  · rw [Nat.min_eq_left (by omega : a ≤ d.length)]
    split_ifs <;> first | rfl | omega
  · rw [List.getElem?_eq_none (by omega : d.length ≤ min a d.length + i),
      List.getElem?_eq_none h]
    simp

/-! ### `struct` -/

/-- The buffer check of `struct.unpack_from(fmt, d, off)` for a format of `n` bytes, and the
bytes it then decodes. A negative offset counts from the end and must leave the whole format
before the end. -/
def bufferAt (d : Bytes) (off : ℤ) (n : ℕ) : Option Bytes :=
  if off < 0 then
    if 0 < off + n ∨ off + d.length < 0 then none else some (window d (off + d.length).toNat n)
  else if off + n ≤ d.length then some (window d off.toNat n)
  else none

theorem bufferAt_natCast (d : Bytes) (a n : ℕ) :
    bufferAt d (a : ℤ) n = if a + n ≤ d.length then some (window d a n) else none := by
  rw [bufferAt, if_neg (by omega), Int.toNat_natCast]
  congr 1
  exact propext ⟨fun h => by omega, fun h => by omega⟩

/-- The bytes `struct.pack` makes of `(width, value)` fields; a value that does not fit its
width is an error. -/
def pack : List (ℕ × ℕ) → Option Bytes
  | [] => some []
  | (w, v) :: fields => if v < 256 ^ w then (pack fields).map (toLE w v ++ ·) else none

/-- `struct.pack_into` at a non-negative offset. -/
def packInto (d : Bytes) (off : ℕ) (fields : List (ℕ × ℕ)) : Option Bytes :=
  (pack fields).bind fun bs => if off + bs.length ≤ d.length then some (splice d off bs) else none

theorem pack_cons_eq_some {w v : ℕ} {fields : List (ℕ × ℕ)} {bs : Bytes} :
    pack ((w, v) :: fields) = some bs ↔
      v < 256 ^ w ∧ ∃ rest, pack fields = some rest ∧ bs = toLE w v ++ rest := by
  rw [pack]
  split_ifs with h
  · simp [h, eq_comm]
  · simp [h]

@[simp] theorem pack_nil_eq_some {bs : Bytes} : pack [] = some bs ↔ bs = [] := by
  rw [pack, Option.some.injEq, eq_comm]

theorem packInto_eq_some {d out : Bytes} {off : ℕ} {fields : List (ℕ × ℕ)} :
    packInto d off fields = some out ↔
      ∃ bs, pack fields = some bs ∧ off + bs.length ≤ d.length ∧ out = splice d off bs := by
  simp only [packInto, Option.bind_eq_some_iff, Option.ite_none_right_eq_some, Option.some.injEq]
  exact exists_congr fun bs => and_congr_right fun _ => and_congr_right fun _ => eq_comm

end PalmaEos
