import Mathlib.Data.List.Basic
import Mathlib.Data.List.Nodup
import Mathlib.Data.List.Perm.Subperm
import Mathlib.Tactic.Ring
import PalmaEos.Lib.Bytes

/-!
# Address spaces, layouts and blocks

An address space is a function `ℕ → α`. A *layout* is a list of segments `(start, length)`; it
lays a flat sequence of elements over the space, segment after segment. The two operations are
`gather` (read the sequence out) and `scatter` (write a sequence in), and both are described by
one partial function, `place`: where element `o` of the sequence lives.

The second half looks at the same space through blocks of `k` elements, and at a batch of block
writes as a list of `(block, contents)` pairs. `writeAll_eq_iff` says when two batches of the
same size have the same effect: exactly when no intended write is missing.

## Main results

* `gather_scatter` — reading back what was scattered
* `scatter_outside` — the frame of a scatter
* `writeAll_eq_iff` — two batches of block writes agree iff the intended one is contained
* `blocks_overwrite` — a flat write of whole blocks, as a batch
-/

namespace PalmaEos

variable {α : Type*}

/-! ### Overwriting a range -/

/-- The space `d` with `bs` written from address `a` on. -/
def overwrite (d : ℕ → α) (a : ℕ) (bs : List α) : ℕ → α :=
  fun i => if a ≤ i then (bs[i - a]?).getD (d i) else d i

theorem overwrite_of_le {d : ℕ → α} {a i : ℕ} (bs : List α) (h : a ≤ i) :
    overwrite d a bs i = (bs[i - a]?).getD (d i) := if_pos h

theorem overwrite_of_not_mem {d : ℕ → α} {a i : ℕ} {bs : List α}
    (h : i < a ∨ a + bs.length ≤ i) : overwrite d a bs i = d i := by
  rcases Nat.lt_or_ge i a with hi | hi
  · exact if_neg (by omega)
  · rw [overwrite_of_le bs hi, List.getElem?_eq_none (by omega), Option.getD_none]

@[simp] theorem overwrite_nil (d : ℕ → α) (a : ℕ) : overwrite d a [] = d :=
  funext fun i => overwrite_of_not_mem (by simp; omega)

/-- The `n` elements of the space from address `a` on. -/
def readAt (d : ℕ → α) (a n : ℕ) : List α := (List.range n).map fun i => d (a + i)

@[simp] theorem length_readAt (d : ℕ → α) (a n : ℕ) : (readAt d a n).length = n := by
  simp [readAt]

theorem getElem?_readAt (d : ℕ → α) (a n i : ℕ) :
    (readAt d a n)[i]? = if i < n then some (d (a + i)) else none := by
  rw [readAt, List.getElem?_map]
  split_ifs with h
  · rw [List.getElem?_range h, Option.map_some]
  · rw [List.getElem?_eq_none (by simpa using h), Option.map_none]

theorem readAt_congr {d e : ℕ → α} {a n : ℕ} (h : ∀ i < n, d (a + i) = e (a + i)) :
    readAt d a n = readAt e a n :=
  List.map_congr_left fun i hi => h i (List.mem_range.mp hi)

theorem window_readAt {d : ℕ → α} {a n b m : ℕ} (h : b + m ≤ n) :
    window (readAt d a n) b m = readAt d (a + b) m := by
  refine List.ext_getElem? ?_
  intro i
  rw [getElem?_window, getElem?_readAt, getElem?_readAt]
  split_ifs with hi hn
  · rw [Nat.add_assoc]
  · omega
  · rfl

/-- A window of what is read depends on the addresses of the window only. -/
theorem window_readAt_congr {d e : ℕ → α} {a n b m : ℕ}
    (h : ∀ i, b ≤ i → i < b + m → d (a + i) = e (a + i)) :
    window (readAt d a n) b m = window (readAt e a n) b m := by
  refine List.ext_getElem? ?_
  intro i
  rw [getElem?_window, getElem?_window, getElem?_readAt, getElem?_readAt]
  split_ifs with hi hn
  · rw [h (b + i) (by omega) (by omega)]
  · rfl
  · rfl

/-! ### Layouts -/

/-- Segments `(start, length)` of an address space, in the order a flat sequence fills them. -/
abbrev Layout := List (ℕ × ℕ)

namespace Layout

/-- Address `a` lies in the segment `s`. -/
def Covers (s : ℕ × ℕ) (a : ℕ) : Prop := s.1 ≤ a ∧ a < s.1 + s.2

/-- No address lies in two segments. -/
def Separate (L : Layout) : Prop := L.Pairwise fun s t => ∀ a, Covers s a → ¬ Covers t a

/-- How many elements the segments hold together. -/
def size (L : Layout) : ℕ := (L.map Prod.snd).sum

@[simp] theorem size_nil : size [] = 0 := rfl

@[simp] theorem size_cons (s : ℕ × ℕ) (L : Layout) : size (s :: L) = s.2 + size L := rfl

/-- The address of element `o` of the flat sequence. -/
def place : Layout → ℕ → Option ℕ
  | [], _ => none
  | s :: L, o => if o < s.2 then some (s.1 + o) else place L (o - s.2)

theorem place_cons_of_lt {s : ℕ × ℕ} {L : Layout} {o : ℕ} (h : o < s.2) :
    place (s :: L) o = some (s.1 + o) := if_pos h

theorem place_cons_of_le {s : ℕ × ℕ} {L : Layout} {o : ℕ} (h : s.2 ≤ o) :
    place (s :: L) o = place L (o - s.2) := if_neg (by omega)

theorem exists_place_of_lt : ∀ {L : Layout} {o : ℕ}, o < size L → ∃ a, place L o = some a
  | [], o, h => absurd h (by simp)
  | s :: L, o, h => by
    rcases Nat.lt_or_ge o s.2 with hs | hs
    · exact ⟨_, place_cons_of_lt hs⟩
    · rw [place_cons_of_le hs]
      exact exists_place_of_lt (by rw [size_cons] at h; omega)

/-- A placed element lies in a segment. -/
theorem covers_of_place : ∀ {L : Layout} {o a : ℕ}, place L o = some a → ∃ s ∈ L, Covers s a
  | [], _, _, h => by simp [place] at h
  | s :: L, o, a, h => by
    rcases Nat.lt_or_ge o s.2 with hs | hs
    · rw [place_cons_of_lt hs, Option.some.injEq] at h
      exact ⟨s, List.mem_cons_self, by rw [Covers]; omega⟩
    · rw [place_cons_of_le hs] at h
      obtain ⟨t, ht, hcov⟩ := covers_of_place h
      exact ⟨t, List.mem_cons_of_mem _ ht, hcov⟩

/-- Every address of a segment is the place of some element. -/
theorem exists_place_of_covers : ∀ {L : Layout} {s : ℕ × ℕ} {a : ℕ}, s ∈ L → Covers s a →
    ∃ o, place L o = some a
  | s' :: L, s, a, hs, hcov => by
    rcases List.mem_cons.mp hs with rfl | hs
    · obtain ⟨hlo, hhi⟩ := hcov
      exact ⟨a - s.1, by rw [place_cons_of_lt (by omega), Nat.add_sub_cancel' hlo]⟩
    · obtain ⟨o, ho⟩ := exists_place_of_covers hs hcov
      exact ⟨s'.2 + o, by rw [place_cons_of_le (by omega), Nat.add_sub_cancel_left, ho]⟩

/-- In a separate layout no two elements share an address. -/
theorem Separate.place_inj : ∀ {L : Layout}, Separate L → ∀ {o o' a : ℕ}, place L o = some a →
    place L o' = some a → o = o'
  | [], _, _, _, _, h, _ => by simp [place] at h
  | s :: L, hL, o, o', a, h, h' => by
    obtain ⟨hs, hrest⟩ := List.pairwise_cons.mp hL
    have hclash : ∀ {p q : ℕ}, p < s.2 → s.2 ≤ q → place (s :: L) p = some a →
        place (s :: L) q = some a → False := by
      intro p q hp hq h₁ h₂
      rw [place_cons_of_lt hp, Option.some.injEq] at h₁
      rw [place_cons_of_le hq] at h₂
      obtain ⟨t, ht, hcov⟩ := covers_of_place h₂
      exact hs t ht a (by rw [Covers]; omega) hcov
    rcases Nat.lt_or_ge o s.2 with ho | ho <;> rcases Nat.lt_or_ge o' s.2 with ho' | ho'
    · rw [place_cons_of_lt ho, Option.some.injEq] at h
      rw [place_cons_of_lt ho', Option.some.injEq] at h'
      omega
    · exact (hclash ho ho' h h').elim
    · exact (hclash ho' ho h' h).elim
    · rw [place_cons_of_le ho] at h
      rw [place_cons_of_le ho'] at h'
      have := Separate.place_inj hrest h h'
      omega

/-- In a layout of whole blocks, the elements of one block stay together. -/
theorem place_block {k : ℕ} : ∀ {L : Layout}, (∀ s ∈ L, k ∣ s.1 ∧ k ∣ s.2) → ∀ {b a : ℕ},
    place L (b * k) = some a → k ∣ a ∧ ∀ i < k, place L (b * k + i) = some (a + i)
  | [], _, _, _, h => by simp [place] at h
  | s :: L, hL, b, a, h => by
    obtain ⟨⟨m, hm⟩, n, hn⟩ := hL s List.mem_cons_self
    rcases Nat.lt_or_ge (b * k) s.2 with hs | hs
    · rw [place_cons_of_lt hs, Option.some.injEq] at h
      have hblock : b * k + k ≤ s.2 := by
        have hbn : b < n := by
          rw [hn, Nat.mul_comm k n] at hs
          exact lt_of_mul_lt_mul_right hs (Nat.zero_le k)
        calc b * k + k = (b + 1) * k := by ring
          _ ≤ n * k := Nat.mul_le_mul_right _ hbn
          _ = s.2 := by rw [hn, Nat.mul_comm]
      refine ⟨⟨m + b, by rw [← h, hm]; ring⟩, ?_⟩
      intro i hi
      rw [place_cons_of_lt (by omega), ← h, Nat.add_assoc]
    · have hsub : b * k - s.2 = (b - n) * k := by rw [hn, Nat.sub_mul, Nat.mul_comm k n]
      rw [place_cons_of_le hs, hsub] at h
      obtain ⟨hdvd, hrest⟩ := place_block (fun t ht => hL t (List.mem_cons_of_mem _ ht)) h
      refine ⟨hdvd, ?_⟩
      intro i hi
      rw [place_cons_of_le (by omega), show b * k + i - s.2 = (b - n) * k + i by omega]
      exact hrest i hi

end Layout

/-! ### Reading and writing along a layout -/

/-- The flat sequence the layout `L` holds. -/
def gather (d : ℕ → α) (L : Layout) : List α := L.flatMap fun s => readAt d s.1 s.2

/-- The space `d` with the sequence `bs` written along `L`. -/
def scatter (d : ℕ → α) : Layout → List α → ℕ → α
  | [], _ => d
  | s :: L, bs => scatter (overwrite d s.1 (bs.take s.2)) L (bs.drop s.2)

@[simp] theorem gather_nil (d : ℕ → α) : gather d [] = [] := rfl

theorem gather_cons (d : ℕ → α) (s : ℕ × ℕ) (L : Layout) :
    gather d (s :: L) = readAt d s.1 s.2 ++ gather d L := rfl

theorem getElem?_gather (d : ℕ → α) : ∀ (L : Layout) (o : ℕ),
    (gather d L)[o]? = (L.place o).map d
  | [], o => by simp [Layout.place]
  | s :: L, o => by
    rw [gather_cons]
    rcases Nat.lt_or_ge o s.2 with hs | hs
    · rw [List.getElem?_append_left (by simpa using hs), getElem?_readAt, if_pos hs,
        Layout.place_cons_of_lt hs, Option.map_some]
    · rw [List.getElem?_append_right (by simpa using hs), length_readAt, getElem?_gather,
        Layout.place_cons_of_le hs]

theorem length_gather (d : ℕ → α) (L : Layout) : (gather d L).length = L.size := by
  induction L with
  | nil => rfl
  | cons s L ih => rw [gather_cons, List.length_append, length_readAt, ih, Layout.size_cons]

/-- **The frame of a scatter.** -/
theorem scatter_outside {a : ℕ} : ∀ {L : Layout} {d : ℕ → α} {bs : List α},
    (∀ s ∈ L, ¬ Layout.Covers s a) → scatter d L bs a = d a
  | [], _, _, _ => rfl
  | s :: L, d, bs, h => by
    rw [scatter, scatter_outside fun t ht => h t (List.mem_cons_of_mem _ ht)]
    refine overwrite_of_not_mem ?_
    have hs := h s List.mem_cons_self
    rw [Layout.Covers] at hs
    rw [List.length_take]
    omega

/-- **The effect of a scatter** at the place of element `o`. -/
theorem scatter_place {o a : ℕ} : ∀ {L : Layout} {d : ℕ → α} {bs : List α}, L.Separate →
    L.place o = some a → scatter d L bs a = (bs[o]?).getD (d a)
  | [], _, _, _, h => by simp [Layout.place] at h
  | s :: L, d, bs, hL, h => by
    obtain ⟨hs, hrest⟩ := List.pairwise_cons.mp hL
    rw [scatter]
    rcases Nat.lt_or_ge o s.2 with ho | ho
    · rw [Layout.place_cons_of_lt ho, Option.some.injEq] at h
      have hcov : Layout.Covers s a := by rw [Layout.Covers]; omega
      rw [scatter_outside fun t ht => hs t ht a hcov, overwrite_of_le _ hcov.1,
        show a - s.1 = o by omega, List.getElem?_take, if_pos ho]
    · rw [Layout.place_cons_of_le ho] at h
      have hout : overwrite d s.1 (bs.take s.2) a = d a := by
        obtain ⟨t, ht, hcov⟩ := Layout.covers_of_place h
        have hns : ¬ Layout.Covers s a := fun hc => hs t ht a hc hcov
        rw [Layout.Covers] at hns
        refine overwrite_of_not_mem ?_
        rw [List.length_take]
        omega
      rw [scatter_place hrest h, hout, List.getElem?_drop, Nat.add_sub_cancel' ho]

/-- **Reading back what was scattered**: the sequence written, then what the rest of the layout
held before. -/
theorem gather_scatter {L : Layout} {d : ℕ → α} {bs : List α} (hL : L.Separate)
    (hlen : bs.length ≤ L.size) :
    gather (scatter d L bs) L = bs ++ (gather d L).drop bs.length := by
  refine List.ext_getElem? ?_
  intro o
  rw [getElem?_gather]
  cases hp : L.place o with
  | none =>
    have ho : L.size ≤ o := by
      by_contra hlt
      obtain ⟨a, ha⟩ := Layout.exists_place_of_lt (Nat.not_le.mp hlt)
      simp [hp] at ha
    rw [Option.map_none, List.getElem?_eq_none]
    rw [List.length_append, List.length_drop, length_gather]
    omega
  | some a =>
    rw [Option.map_some, scatter_place hL hp]
    rcases Nat.lt_or_ge o bs.length with ho | ho
    · rw [List.getElem?_append_left ho, List.getElem?_eq_getElem ho, Option.getD_some]
    · rw [List.getElem?_append_right ho, List.getElem?_eq_none ho, Option.getD_none,
        List.getElem?_drop, Nat.add_sub_cancel' ho, getElem?_gather, hp, Option.map_some]

/-! ### Batches of writes -/

variable {A V : Type*} [DecidableEq A]

/-- The map `d` after the writes of `W`, in order. -/
def writeAll (d : A → V) (W : List (A × V)) : A → V :=
  W.foldl (fun e p => Function.update e p.1 p.2) d

@[simp] theorem writeAll_nil (d : A → V) : writeAll d [] = d := rfl

theorem writeAll_cons (d : A → V) (p : A × V) (W : List (A × V)) :
    writeAll d (p :: W) = writeAll (Function.update d p.1 p.2) W := rfl

theorem writeAll_append (d : A → V) (W W' : List (A × V)) :
    writeAll d (W ++ W') = writeAll (writeAll d W) W' := List.foldl_append

theorem writeAll_of_not_mem {x : A} : ∀ {W : List (A × V)} {d : A → V}, (∀ p ∈ W, p.1 ≠ x) →
    writeAll d W x = d x
  | [], _, _ => rfl
  | p :: W, d, h => by
    rw [writeAll_cons, writeAll_of_not_mem fun q hq => h q (List.mem_cons_of_mem _ hq),
      Function.update_of_ne (h p List.mem_cons_self).symm]

/-- The last writer of a key is one of the writes. -/
theorem exists_writer {x : A} : ∀ {W : List (A × V)} {d : A → V}, (∃ p ∈ W, p.1 = x) →
    (x, writeAll d W x) ∈ W
  | [], _, h => by simp at h
  | p :: W, d, h => by
    rw [writeAll_cons]
    by_cases hW : ∃ q ∈ W, q.1 = x
    · exact List.mem_cons_of_mem _ (exists_writer hW)
    · have hp : p.1 = x := by
        obtain ⟨q, hq, hqx⟩ := h
        rcases List.mem_cons.mp hq with rfl | hq
        · exact hqx
        · exact absurd ⟨q, hq, hqx⟩ hW
      rw [writeAll_of_not_mem fun q hq hqx => hW ⟨q, hq, hqx⟩, ← hp, Function.update_self]
      exact List.mem_cons_self

/-- With distinct keys a batch is a finite map. -/
theorem writeAll_of_mem {W : List (A × V)} {d : A → V} (hW : (W.map Prod.fst).Nodup) {p : A × V}
    (hp : p ∈ W) : writeAll d W p.1 = p.2 := by
  have hw : (p.1, writeAll d W p.1) ∈ W := exists_writer ⟨p, hp, rfl⟩
  have := List.inj_on_of_nodup_map hW hw hp rfl
  rw [← this]

/-- **When two batches agree.** Let `F` write distinct keys, each with a value it did not have,
and let `W` be no longer than `F`. Then `W` has the same effect as `F` exactly when no write of
`F` is missing from `W`; there is no room for a stray one then. -/
theorem writeAll_eq_iff {W F : List (A × V)} {d : A → V} (hF : (F.map Prod.fst).Nodup)
    (hlen : W.length ≤ F.length) (hne : ∀ p ∈ F, d p.1 ≠ p.2) :
    writeAll d W = writeAll d F ↔ F ⊆ W := by
  constructor
  · intro heq p hp
    have hval : writeAll d W p.1 = p.2 := by rw [heq, writeAll_of_mem hF hp]
    have hmem : (p.1, writeAll d W p.1) ∈ W := by
      refine exists_writer (by_contra fun hno => ?_)
      push Not at hno
      exact hne p hp (by rw [← hval, writeAll_of_not_mem hno])
    rwa [hval] at hmem
  · intro hsub
    have hperm : F.Perm W :=
      (List.subperm_of_subset (List.Nodup.of_map _ hF) hsub).perm_of_length_le hlen
    have hW : (W.map Prod.fst).Nodup := (hperm.map Prod.fst).nodup_iff.mp hF
    funext x
    by_cases hx : ∃ p ∈ F, p.1 = x
    · obtain ⟨p, hp, rfl⟩ := hx
      rw [writeAll_of_mem hW (hperm.mem_iff.mp hp), writeAll_of_mem hF hp]
    · push Not at hx
      rw [writeAll_of_not_mem hx, writeAll_of_not_mem fun p hp => hx p (hperm.mem_iff.mpr hp)]

/-! ### Blocks -/

/-- The space seen as blocks of `k` elements. -/
def blocks (k : ℕ) (d : ℕ → α) : ℕ → List α := fun x => readAt d (x * k) k

theorem blocks_injective {k : ℕ} (hk : 0 < k) :
    Function.Injective (blocks k : (ℕ → α) → ℕ → List α) := by
  intro d e h
  funext a
  have hmod : a % k < k := Nat.mod_lt a hk
  have := congrArg (·[a % k]?) (congrFun h (a / k))
  simpa only [blocks, getElem?_readAt, if_pos hmod, Nat.div_add_mod', Option.some.injEq] using this

/-- Block `j` of a sequence. -/
def blockOf (k : ℕ) (bs : List α) (j : ℕ) : List α := window bs (j * k) k

/-- In a sequence of whole blocks, a block that begins inside ends inside. -/
theorem block_end_le {k n s : ℕ} (hn : k ∣ n) (hs : s * k < n) : (s + 1) * k ≤ n := by
  obtain ⟨m, rfl⟩ := hn
  rw [Nat.mul_comm k] at hs ⊢
  exact Nat.mul_le_mul_right _ (Nat.lt_of_mul_lt_mul_right hs)

/-- A flat write of `n` whole blocks at block `x` is a batch of `n` block writes. -/
theorem blocks_overwrite {k x n : ℕ} {d : ℕ → α} {bs : List α} (hbs : bs.length = n * k) :
    blocks k (overwrite d (x * k) bs) =
      writeAll (blocks k d) ((List.range n).map fun j => (x + j, blockOf k bs j)) := by
  funext y
  by_cases hy : x ≤ y ∧ y < x + n
  · obtain ⟨j, rfl⟩ := Nat.exists_eq_add_of_le hy.1
    have hj : j < n := by omega
    have hkeys : (((List.range n).map fun j => (x + j, blockOf k bs j)).map Prod.fst).Nodup := by
      rw [List.map_map]
      exact List.nodup_range.map fun p q hpq => Nat.add_left_cancel hpq
    rw [writeAll_of_mem hkeys (p := (x + j, blockOf k bs j))
      (List.mem_map.mpr ⟨j, List.mem_range.mpr hj, rfl⟩)]
    refine List.ext_getElem? ?_
    intro i
    rw [blocks, getElem?_readAt, blockOf, getElem?_window]
    split_ifs with hi
    · have hin : j * k + i < bs.length := by
        calc j * k + i < (j + 1) * k := by rw [Nat.succ_mul]; omega
          _ ≤ n * k := Nat.mul_le_mul_right _ hj
          _ = bs.length := hbs.symm
      rw [overwrite_of_le _ (by rw [Nat.add_mul]; omega),
        show (x + j) * k + i - x * k = j * k + i by rw [Nat.add_mul]; omega,
        List.getElem?_eq_getElem hin, Option.getD_some]
    · rfl
  · rw [writeAll_of_not_mem]
    · refine readAt_congr fun i hi => overwrite_of_not_mem ?_
      rw [hbs, ← Nat.add_mul]
      rcases Nat.lt_or_ge y x with hlt | hge
      · left
        calc y * k + i < (y + 1) * k := by rw [Nat.succ_mul]; omega
          _ ≤ x * k := Nat.mul_le_mul_right _ hlt
      · right
        exact le_trans (Nat.mul_le_mul_right k (by omega : x + n ≤ y)) (Nat.le_add_right _ _)
    · simp only [List.mem_map, List.mem_range, forall_exists_index, and_imp]
      rintro p j hj rfl
      exact fun hp => hy (by simp only at hp; omega)

end PalmaEos
