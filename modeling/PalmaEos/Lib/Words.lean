import Mathlib.Data.List.DropRight
import PalmaEos.Lib.Text

/-!
# The words of a text

What Python's `str.split()` and `str.strip()` make of a text, and texts in fields of bytes that a
zero ends.

## Main results

* `words_append_space` — words on the two sides of white space
* `words_strip` — stripping keeps the words
* `takeWhile_field`, `decode_no_nul`, `encode_no_nul` — a text in a field that a zero ends
-/

namespace PalmaEos

namespace Text

/-- `str.split()`. -/
def words (l : Text) : List Text := (l.splitOnP isSpace).filter (· ≠ [])

/-- `str.strip()`. -/
def strip (l : Text) : Text := (l.dropWhile isSpace).rdropWhile isSpace

section Words

variable {l : Text} {c : Char}

theorem words_append_space (h : isSpace c = true) (a b : Text) :
    words (a ++ c :: b) = words a ++ words b := by
  rw [words, List.splitOnP_append_cons a b h, List.filter_append]
  rfl

theorem words_nil : words [] = [] := by
  rw [words, List.splitOnP_nil]
  rfl

/-- White space at either end belongs to no word. -/
theorem words_cons_space (h : isSpace c = true) (l : Text) : words (c :: l) = words l := by
  have hsplit := words_append_space h [] l
  rwa [words_nil] at hsplit

theorem words_concat_space (h : isSpace c = true) (l : Text) : words (l ++ [c]) = words l := by
  rw [words_append_space h, words_nil, List.append_nil]

theorem words_dropWhile (l : Text) : words (l.dropWhile isSpace) = words l := by
  induction l with
  | nil => rfl
  | cons c l ih =>
    cases h : isSpace c with
    | true => rw [List.dropWhile_cons_of_pos h, ih, words_cons_space h]
    | false => rw [List.dropWhile_cons_of_neg (by simp [h])]

theorem words_rdropWhile (l : Text) : words (l.rdropWhile isSpace) = words l := by
  induction l using List.reverseRecOn with
  | nil => rfl
  | append_singleton l c ih =>
    cases h : isSpace c with
    | true => rw [List.rdropWhile_concat_pos _ _ _ h, ih, words_concat_space h]
    | false => rw [List.rdropWhile_concat_neg _ _ _ (by simp [h])]

/-- **Stripping** keeps the words. -/
theorem words_strip (l : Text) : words (strip l) = words l := by
  rw [strip, words_rdropWhile, words_dropWhile]

theorem mem_of_mem_strip (h : c ∈ strip l) : c ∈ l := by
  obtain ⟨t, ht⟩ := List.rdropWhile_prefix isSpace (l := l.dropWhile isSpace)
  have hmem : c ∈ l.dropWhile isSpace := ht ▸ List.mem_append_left t h
  exact (List.dropWhile_suffix isSpace).subset hmem

end Words

/-! ### Fields that a zero ends -/

section Nul

variable {l : Text} {c : Char}

/-- Only U+0000 has a zero among its bytes. -/
theorem encodeChar_no_nul (hc : c.toNat ≠ 0) : ∀ b ∈ String.utf8EncodeChar c, b ≠ 0 := by
  obtain ⟨v, hv⟩ : ∃ v, v = c.val.toNat := ⟨_, rfl⟩
  have hvalid : v < 0xD800 ∨ 0xDFFF < v ∧ v < 0x110000 := hv ▸ c.valid
  have hpos : v ≠ 0 := hv ▸ hc
  have hmark : ∀ n m : ℕ, n + m < 256 → n + m ≠ 0 → UInt8.ofNat (n + m) ≠ 0 := by
    intro n m hlt hne hzero
    have := toNat_mark hlt
    rw [hzero] at this
    exact hne this.symm
  rw [String.utf8EncodeChar]
  simp only [← hv]
  split_ifs with h1 h2 h3
  · simp only [List.forall_mem_singleton]
    exact hmark v 0 (by omega) (by omega)
  · exact List.forall_mem_cons.mpr ⟨hmark _ _ (by omega) (by omega),
      List.forall_mem_singleton.mpr (hmark _ _ (by omega) (by omega))⟩
  · exact List.forall_mem_cons.mpr ⟨hmark _ _ (by omega) (by omega),
      List.forall_mem_cons.mpr ⟨hmark _ _ (by omega) (by omega),
        List.forall_mem_singleton.mpr (hmark _ _ (by omega) (by omega))⟩⟩
  · exact List.forall_mem_cons.mpr ⟨hmark _ _ (by omega) (by omega),
      List.forall_mem_cons.mpr ⟨hmark _ _ (by omega) (by omega),
        List.forall_mem_cons.mpr ⟨hmark _ _ (by omega) (by omega),
          List.forall_mem_singleton.mpr (hmark _ _ (by omega) (by omega))⟩⟩⟩

theorem encode_no_nul (h : ∀ c ∈ l, c.toNat ≠ 0) : ∀ b ∈ encode l, b ≠ 0 := by
  intro b hb
  obtain ⟨c, hc, hb⟩ := List.mem_flatMap.mp hb
  exact encodeChar_no_nul (h c hc) b hb

theorem decodeFuel_no_nul {fuel : ℕ} {bs : Bytes} (h : ∀ b ∈ bs, b ≠ 0) :
    ∀ c ∈ decodeFuel fuel bs, c.toNat ≠ 0 := by
  induction fuel generalizing bs with
  | zero => exact fun c hc => absurd hc List.not_mem_nil
  | succ fuel ih =>
    cases bs with
    | nil => exact fun c hc => absurd hc List.not_mem_nil
    | cons b₀ rest =>
      obtain ⟨hb₀, hrest⟩ := List.forall_mem_cons.mp h
      rw [decodeFuel, List.forall_mem_cons]
      refine ⟨?_, ih fun b hb => hrest b (List.mem_of_mem_drop hb)⟩
      by_cases hascii : b₀ < 0x80
      · have hstep : decodeStep b₀ rest = (Char.ofNat b₀.toNat, 0) := by
          rw [decodeStep.eq_def, if_pos hascii]
        rw [hstep, toNat_ofNat_of_ascii hascii]
        exact fun hzero => hb₀ (UInt8.toNat_inj.mp hzero)
      · have := decodeStep_not_ascii hascii rest
        omega

theorem decode_no_nul {bs : Bytes} (h : ∀ b ∈ bs, b ≠ 0) : ∀ c ∈ decode bs, c.toNat ≠ 0 :=
  decodeFuel_no_nul h

/-- A field holds what stands before its first zero. -/
theorem takeWhile_field {bs : Bytes} (h : ∀ b ∈ bs, b ≠ 0) {n : ℕ} (hn : 0 < n) :
    (bs ++ List.replicate n 0).takeWhile (· ≠ 0) = bs := by
  obtain ⟨m, rfl⟩ := Nat.exists_eq_add_one_of_ne_zero hn.ne'
  rw [List.takeWhile_append_of_pos fun b hb => decide_eq_true (h b hb), List.replicate_succ,
    List.takeWhile_cons_of_neg (by simp), List.append_nil]

end Nul

end Text

end PalmaEos
