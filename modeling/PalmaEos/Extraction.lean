import PalmaEos.LpUnpack

/-!
# What an extraction writes

`extract` reads and writes in chunks, and every read may be short. What it writes does not show it:
it is the content of the extents one after another, up to and with the first that cannot be read to
its end.

An extent whose range is empty has no byte that could lie outside the image, wherever it starts.

## Main results

* `extractLoop_cases` — all extents are read, or the first that cannot be read ends the extraction
* `extract_exact` — when `extract` returns, with what, and when it raises
-/

namespace PalmaEos

namespace LpUnpack

/-- The number of bytes of an extent. -/
def Extent.size (e : Extent) : ℕ := e.numSectors * SECTOR_SIZE

/-- An extent that can be read to its end: zeros, or a range of the image. -/
def Readable (f : Reader) (e : Extent) : Prop :=
  e.targetType = TARGET_TYPE_ZERO ∨ e.targetType = TARGET_TYPE_LINEAR ∧
    ∀ k < e.size, e.targetData * SECTOR_SIZE + k < f.bytes.length

/-- What there is of an extent: zeros, or what the image has of its range. -/
def content (f : Reader) (e : Extent) : Bytes :=
  if e.targetType = TARGET_TYPE_ZERO then List.replicate e.size 0
  else if e.targetType = TARGET_TYPE_LINEAR then
    window f.bytes (e.targetData * SECTOR_SIZE) e.size
  else []

/-- The extents of a partition, when its index range lies inside the table. -/
def partExtents (part : Partition) (extents : List Extent) : List Extent :=
  window extents part.firstExtentIndex part.numExtents

/-! ### The loops -/

section Loops

variable {f : Reader} {e : Extent}

/-- What can be read, and what there is of it, hangs on the bytes of the file alone. -/
theorem readable_congr {f' : Reader} (h : f'.bytes = f.bytes) : Readable f' e ↔ Readable f e := by
  rw [Readable, Readable, h]

theorem content_congr {f' : Reader} (h : f'.bytes = f.bytes) : content f' = content f := by
  funext e
  rw [content, content, h]

/-- The writing loop writes zeros. -/
theorem zeroLoop_eq (chunk : ℕ+) {zeros : Bytes} {n : ℕ} (remaining : ℕ)
    (hzeros : zeros = List.replicate n 0) (hn : min (chunk : ℕ) remaining ≤ n) :
    zeroLoop chunk zeros remaining = List.replicate remaining 0 := by
  fun_induction zeroLoop chunk zeros remaining with
  | case1 => rfl
  | case2 remaining hrem k ih =>
    have hk : k ≤ n := hn
    have hle : k ≤ remaining := Nat.min_le_right _ _
    rw [ih (by omega), hzeros, List.take_replicate, Nat.min_eq_left hk, ← List.replicate_add,
      Nat.add_sub_cancel' hle]

theorem content_linear (f : Reader) {e : Extent} (h : e.targetType = TARGET_TYPE_LINEAR) :
    content f e = window f.bytes (e.targetData * SECTOR_SIZE) e.size := by
  rw [content, if_neg (by rw [h]; decide), if_pos h]

/-- What there is of an extent that can be read is all of it, and of another LINEAR one less. -/
theorem length_content (f : Reader) (e : Extent) : (content f e).length ≤ e.size ∧
    (Readable f e → (content f e).length = e.size) ∧
    (e.targetType = TARGET_TYPE_LINEAR → ¬ Readable f e → (content f e).length < e.size) := by
  rw [content]
  split_ifs with hzero hlinear
  · rw [List.length_replicate]
    exact ⟨le_rfl, fun _ => rfl, fun _ hread => absurd (Or.inl hzero) hread⟩
  · rw [length_window]
    refine ⟨Nat.min_le_left _ _, fun hread => ?_, fun _ hread => ?_⟩
    · rcases hread with hread | ⟨-, hin⟩
      · exact absurd hread hzero
      · rcases Nat.eq_zero_or_pos e.size with hnone | hpos
        · omega
        · have := hin (e.size - 1) (by omega)
          omega
    · by_contra hlt
      refine hread (Or.inr ⟨hlinear, fun k hk => ?_⟩)
      omega
  · refine ⟨Nat.zero_le _, fun hread => ?_, fun hlinear' => absurd hlinear' hlinear⟩
    rcases hread with hread | ⟨hread, -⟩
    · exact absurd hread hzero
    · exact absurd hread hlinear

/-- One extent that can be read. -/
theorem extractLoop_readable (chunk : ℕ+) (name : Text) (h : Readable f e)
    (rest : List (Option Extent)) (written : ℕ) :
    ∃ f' : Reader, f'.bytes = f.bytes ∧ extractLoop chunk name f (some e :: rest) written
      = (content f e ++ (extractLoop chunk name f' rest (written + e.size)).1,
        (extractLoop chunk name f' rest (written + e.size)).2) := by
  rw [extractLoop, content]
  by_cases hzero : e.targetType = TARGET_TYPE_ZERO
  · rw [if_pos hzero, if_pos hzero]
    dsimp only
    rw [zeroLoop_eq chunk _ rfl le_rfl]
    exact ⟨f, rfl, rfl⟩
  · obtain ⟨hlinear, -⟩ := h.resolve_left hzero
    have hlen := (length_content f e).2.1 h
    rw [content_linear f hlinear] at hlen
    rw [if_neg hzero, if_neg hzero, if_neg (not_not.mpr hlinear), if_pos hlinear]
    obtain ⟨f', hbytes, hread⟩ := readLoop_window f chunk (e.targetData * SECTOR_SIZE) e.size
    refine ⟨f', hbytes, ?_⟩
    dsimp only
    rw [← Extent.size, hread, if_pos hlen]

/-- The first extent that cannot be read. -/
theorem extractLoop_unreadable (chunk : ℕ+) (name : Text) (h : ¬ Readable f e)
    (rest : List (Option Extent)) (written : ℕ) :
    ∃ err f', extractLoop chunk name f (some e :: rest) written
      = (content f e, .error (.lp err), f') := by
  have hzero : e.targetType ≠ TARGET_TYPE_ZERO := fun hzero => h (Or.inl hzero)
  rw [extractLoop, content, if_neg hzero, if_neg hzero]
  by_cases hlinear : e.targetType = TARGET_TYPE_LINEAR
  · have hlen := (length_content f e).2.2 hlinear h
    rw [content_linear f hlinear] at hlen
    rw [if_neg (not_not.mpr hlinear), if_pos hlinear]
    obtain ⟨f', -, hread⟩ := readLoop_window f chunk (e.targetData * SECTOR_SIZE) e.size
    dsimp only
    rw [← Extent.size, hread, if_neg hlen.ne]
    exact ⟨_, f', rfl⟩
  · rw [if_pos hlinear, if_neg hlinear]
    exact ⟨_, f, rfl⟩

/-- **The extent loop.** All extents are read, or there is a first that cannot be read, and what
there is of it is the last that is written. -/
theorem extractLoop_cases (f : Reader) (chunk : ℕ+) (name : Text) (es : List Extent)
    (written : ℕ) :
    ((∀ e ∈ es, Readable f e) ∧ ∃ f', extractLoop chunk name f (es.map some) written
      = (es.flatMap (content f), .ok (written + (es.map Extent.size).sum), f')) ∨
    ∃ pre e post err f', es = pre ++ e :: post ∧ (∀ x ∈ pre, Readable f x) ∧ ¬ Readable f e ∧
      extractLoop chunk name f (es.map some) written
        = ((pre ++ [e]).flatMap (content f), .error (.lp err), f') := by
  induction es generalizing f written with
  | nil => exact Or.inl ⟨nofun, f, rfl⟩
  | cons e es ih =>
    rw [List.map_cons]
    by_cases hread : Readable f e
    · obtain ⟨f₁, hbytes, hrun⟩ := extractLoop_readable chunk name hread (es.map some) written
      have hcontent := content_congr hbytes
      have hreadable (x : Extent) : Readable f₁ x ↔ Readable f x := readable_congr hbytes
      rw [hrun]
      rcases ih f₁ (written + e.size) with
        ⟨hall, f', hrest⟩ | ⟨pre, x, post, err, f', rfl, hpre, hx, hrest⟩
      · left
        rw [hrest, hcontent]
        refine ⟨List.forall_mem_cons.mpr ⟨hread, fun x hx => (hreadable x).mp (hall x hx)⟩, f', ?_⟩
        rw [List.flatMap_cons, List.map_cons, List.sum_cons, Nat.add_assoc]
      · right
        rw [hrest, hcontent]
        exact ⟨e :: pre, x, post, err, f', rfl,
          List.forall_mem_cons.mpr ⟨hread, fun y hy => (hreadable y).mp (hpre y hy)⟩,
          fun hx' => hx ((hreadable x).mpr hx'), rfl⟩
    · right
      obtain ⟨err, f', hfails⟩ := extractLoop_unreadable chunk name hread (es.map some) written
      exact ⟨[], e, es, err, f', rfl, nofun, hread, by rw [hfails]; simp⟩

end Loops

/-! ### The extraction -/

section Extract

variable {part : Partition} {extents : List Extent}

theorem partitionSize_eq_sum (hidx : part.firstExtentIndex + part.numExtents ≤ extents.length) :
    partitionSize part extents = .ok ((partExtents part extents).map Extent.size).sum := by
  rw [partitionSize_eq hidx, Layout.size, linearRanges, List.map_map]
  rfl

/-- **Extraction equals its specification.** Let the extent range of the partition lie inside the
table. However short the reads are and whatever the chunk size, `extract` ends. When every extent is
ZERO or LINEAR with all of its range in the image, it writes, in order, the zeros of each ZERO
extent and the image bytes of each LINEAR extent, and returns `partition_size`; otherwise it raises
`LpError`. -/
theorem extract_exact (f : Reader) (part : Partition) (extents : List Extent) (chunk : ℕ+)
    (hidx : part.firstExtentIndex + part.numExtents ≤ extents.length) :
    ((∀ e ∈ partExtents part extents, Readable f e) →
      (extract f part extents chunk).1 = (partExtents part extents).flatMap (content f) ∧
        (extract f part extents chunk).2 = partitionSize part extents ∧
        ∃ size, partitionSize part extents = .ok size) ∧
    ((∃ e ∈ partExtents part extents, ¬ Readable f e) →
      ∃ err, (extract f part extents chunk).2 = .error (.lp err)) := by
  rw [extract, extentsOf_eq hidx, partitionSize_eq_sum hidx, ← partExtents]
  rcases extractLoop_cases f chunk part.name (partExtents part extents) 0 with
    ⟨hall, f', hrun⟩ | ⟨pre, e, post, err, f', hsplit, -, hbad, hrun⟩
  · rw [hrun, Nat.zero_add]
    refine ⟨fun _ => ⟨rfl, rfl, _, rfl⟩, ?_⟩
    rintro ⟨e, he, hbad⟩
    exact absurd (hall e he) hbad
  · rw [hrun]
    refine ⟨fun hall => absurd (hall e ?_) hbad, fun _ => ⟨err, rfl⟩⟩
    rw [hsplit]
    exact List.mem_append_right _ List.mem_cons_self

/-- A file of 1024 bytes that hands out one byte, then two, and so on. -/
def slowReader : Reader where
  bytes := List.replicate 1024 7
  got i _ k := min (i + 1) k
  got_le i _ k := Nat.min_le_right (i + 1) k
  got_pos i _ k hk _ := by omega

/-- A partition of one sector of the image, one of zeros, and nothing from behind the image. -/
def mixedExtents : List Extent := [⟨1, 0, 1, 0⟩, ⟨1, 1, 0, 0⟩, ⟨0, 0, 9, 0⟩]

theorem extract_exact_mixed :
    (extract slowReader ⟨"a".toList, 0, 0, 3, 0⟩ mixedExtents 3).2 = .ok 1024 := by
  obtain ⟨hread, -⟩ := extract_exact slowReader ⟨"a".toList, 0, 0, 3, 0⟩ mixedExtents 3 (by decide)
  refine (hread ?_).2.1
  intro e he
  simp only [partExtents, mixedExtents, window, List.drop_zero, List.take_succ_cons, List.take_zero,
    List.mem_cons, List.not_mem_nil, or_false] at he
  have hlength : slowReader.bytes.length = 1024 := List.length_replicate
  rw [Readable, hlength]
  rcases he with rfl | rfl | rfl
  · exact Or.inr ⟨rfl, fun k hk => by
      simp only [Extent.size, SECTOR_SIZE] at hk ⊢
      omega⟩
  · exact Or.inl rfl
  · exact Or.inr ⟨rfl, fun k hk => by
      simp only [Extent.size] at hk
      omega⟩

end Extract

end LpUnpack

end PalmaEos
