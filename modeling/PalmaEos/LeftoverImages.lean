import Mathlib.Logic.Function.Basic
import PalmaEos.Extraction

/-!
# Images that a failed extraction leaves

`extract` opens its destination before it reads anything, so a failed extraction leaves what it has
written by then. `dump-and-analyze-super.sh` runs `lpunpack.py` for a partition unless there is an
image of it already, whatever the image holds, and stops when `lpunpack.py` fails: the next run of
the script takes the image that the failed one has left.

What `lpunpack.py` prints is left out, and so is the rest of the script, which reads the images.

## Main results

* `leftover_of_error` — what a failed extraction leaves
* `failed_extract_leaves` — it always leaves a file, and the unpack loop passes it
* `rerun_takes_leftover` — two runs of the script on a partition that fails to be extracted
-/

namespace PalmaEos

namespace LpUnpack

/-! ### The two programs -/

/-- `extract`, on its destination: the file that is there afterwards, whether or not there was one,
and the value returned or the exception raised. -/
def extractTo (f : Reader) (part : Partition) (extents : List Extent) (chunk : ℕ+) :
    Option Bytes × Except UnpackError ℕ :=
  let (out, r) := extract f part extents chunk
  (some out, r)

/-- The chunk size of `main`. -/
def CHUNK : ℕ+ := ⟨8 * 1024 * 1024, by decide⟩

/-- The loop of `main` over the selected partitions, which have one name and so one destination:
the file there, and whether the loop ends without an exception. -/
def extractAll (extents : List Extent) :
    Reader → List Partition → Option Bytes → Option Bytes × Bool
  | _, [], dest => (dest, true)
  | f, p :: ps, dest =>
    if p.numExtents = 0 then extractAll extents f ps dest
    else match extractTo f p extents CHUNK with
      | (dest, .ok _) => extractAll extents (afterExtract f p extents CHUNK) ps dest
      | (dest, .error _) => (dest, false)

/-- `lpunpack.py --slot <slot> <super> <outdir> <name>`: the file at the destination, and whether
the exit code is 0. -/
def main (f : Reader) (slot : ℤ) (name : Text) (dest : Option Bytes) : Option Bytes × Bool :=
  match readTables f.bytes slot with
  | .error _ => (dest, false)
  | .ok (parts, extents) =>
    let selected := parts.filter fun p => p.name = name
    if selected = [] then (dest, false) else extractAll extents f selected dest

/-- `lpunpack.py --slot <slot> --list <super>`: whether the exit code is 0. -/
def list (image : Bytes) (slot : ℤ) : Bool :=
  match readTables image slot with
  | .error _ => false
  | .ok (parts, extents) => parts.all fun p => (partitionSize p extents).isOk

end LpUnpack

/-- The unpack loop of `dump-and-analyze-super.sh` over the images, by partition: the images
afterwards, and whether the script goes on. `f p` is the dump as the run for `p` opens it. -/
def unpackLoop (f : Text → LpUnpack.Reader) (slot : ℤ) :
    List Text → (Text → Option Bytes) → (Text → Option Bytes) × Bool
  | [], imgs => (imgs, true)
  | p :: ps, imgs =>
    if imgs p = none then
      match LpUnpack.main (f p) slot p (imgs p) with
      | (img, true) => unpackLoop f slot ps (Function.update imgs p img)
      | (img, false) => (Function.update imgs p img, false)
    else unpackLoop f slot ps imgs

/-- The unpack step of the script, for the partitions `system` and `vendor` with their suffix. -/
def unpackStep (image : Bytes) (f : Text → LpUnpack.Reader) (slot : ℤ) (names : List Text)
    (imgs : Text → Option Bytes) : (Text → Option Bytes) × Bool :=
  if LpUnpack.list image slot then unpackLoop f slot names imgs else (imgs, false)

namespace LpUnpack

/-! ### What is left -/

section Leftover

variable {f : Reader} {part : Partition} {extents : List Extent} {chunk : ℕ+}

/-- What is left of a partition: the content of its extents up to and with the first that cannot be
read. It is no longer than the partition, and as long only when that extent and all behind it are
empty. -/
def Leftover (f : Reader) (part : Partition) (extents : List Extent) (img : Bytes) : Prop :=
  ∃ pre e post, partExtents part extents = pre ++ e :: post ∧ (∀ x ∈ pre, Readable f x) ∧
    ¬ Readable f e ∧ img = (pre ++ [e]).flatMap (content f) ∧
    ∃ size, partitionSize part extents = .ok size ∧ img.length ≤ size ∧
      (img.length = size ↔ ∀ x ∈ e :: post, x.size = 0)

/-- **What a failed extraction leaves** of a partition whose extents are in the table. -/
theorem leftover_of_error (hidx : part.firstExtentIndex + part.numExtents ≤ extents.length)
    (h : ∃ err, (extract f part extents chunk).2 = .error err) :
    Leftover f part extents (extract f part extents chunk).1 := by
  obtain ⟨err, herr⟩ := h
  rw [extract, extentsOf_eq hidx, ← partExtents] at herr ⊢
  rcases extractLoop_cases f chunk part.name (partExtents part extents) 0 with
    ⟨-, f', hrun⟩ | ⟨pre, e, post, err', f', hsplit, hpre, hbad, hrun⟩
  · rw [hrun] at herr
    exact absurd herr (by simp)
  refine ⟨pre, e, post, hsplit, hpre, hbad, by rw [hrun], _, partitionSize_eq_sum hidx, ?_⟩
  have hlen : ((pre ++ [e]).flatMap (content f)).length
      = (pre.map Extent.size).sum + (content f e).length := by
    rw [List.flatMap_append, List.length_append, List.length_flatMap, List.flatMap_singleton]
    congr 2
    exact List.map_congr_left fun x hx => (length_content f x).2.1 (hpre x hx)
  obtain ⟨hle, -, hlinear⟩ := length_content f e
  rw [hrun, hsplit, hlen, List.map_append, List.sum_append, List.map_cons, List.sum_cons]
  have hempty : (∀ x ∈ e :: post, x.size = 0) ↔ e.size = 0 ∧ (post.map Extent.size).sum = 0 := by
    rw [List.forall_mem_cons, List.sum_eq_zero_iff_forall_eq_nat, List.forall_mem_map]
  rw [hempty]
  refine ⟨by omega, ?_⟩
  by_cases htype : e.targetType = TARGET_TYPE_LINEAR
  · have := hlinear htype hbad
    omega
  · have hnone : (content f e).length = 0 := by
      rw [content, if_neg fun hzero => hbad (Or.inl hzero), if_neg htype, List.length_nil]
    omega

/-- A failed extraction that made its destination has taken it away again. -/
def LeavesNothing (f : Reader) (part : Partition) (extents : List Extent) (chunk : ℕ+) : Prop :=
  (extractTo f part extents chunk).1 = none

theorem extractTo_error {err : UnpackError}
    (h : (extract f part extents chunk).2 = .error err) :
    extractTo f part extents chunk = (some (extract f part extents chunk).1, .error err) := by
  rw [extractTo, ← h]

/-- The unpack loop passes a partition that has an image, whatever the image holds. -/
theorem unpackLoop_pass (fs : Text → Reader) (slot : ℤ) {p : Text} (rest : List Text)
    {imgs : Text → Option Bytes} {img : Bytes} (h : imgs p = some img) :
    unpackLoop fs slot (p :: rest) imgs = unpackLoop fs slot rest imgs := by
  rw [unpackLoop, if_neg (by rw [h]; nofun)]

/-- **A failed extraction leaves its file.** Whatever makes `extract` raise, there is a file at the
destination, with the leftover of the partition where its extents are in the table, and the unpack
loop goes on with it, however short it is. -/
theorem failed_extract_leaves (f : Reader) (part : Partition) (extents : List Extent) (chunk : ℕ+)
    (h : ∃ err, (extract f part extents chunk).2 = .error err) :
    ¬ LeavesNothing f part extents chunk ∧
      ∃ img err, extractTo f part extents chunk = (some img, .error err) ∧
        (part.firstExtentIndex + part.numExtents ≤ extents.length →
          Leftover f part extents img) ∧
        ∀ fs slot p rest (imgs : Text → Option Bytes), imgs p = some img →
          unpackLoop fs slot (p :: rest) imgs = unpackLoop fs slot rest imgs := by
  obtain ⟨err, herr⟩ := h
  have hto := extractTo_error herr
  rw [LeavesNothing, hto]
  exact ⟨nofun, _, err, rfl, fun hidx => leftover_of_error hidx ⟨err, herr⟩,
    fun fs slot p rest imgs himg => unpackLoop_pass fs slot rest himg⟩

/-- The script on a partition that fails to be extracted: the first run stops, and the next one
passes the partition with the image that is left. -/
theorem rerun_takes_leftover {image : Bytes} {fs fs' : Text → Reader} {slot : ℤ} {p : Text}
    {parts : List Partition} {imgs : Text → Option Bytes} (hlist : list image slot = true)
    (hbytes : (fs p).bytes = image) (htables : readTables image slot = .ok (parts, extents))
    (hselected : (parts.filter fun q => q.name = p) = [part]) (hsome : part.numExtents ≠ 0)
    (hnone : imgs p = none) (h : ∃ err, (extract (fs p) part extents CHUNK).2 = .error err) :
    ∃ img, (extractTo (fs p) part extents CHUNK).1 = some img ∧
      unpackStep image fs slot [p] imgs = (Function.update imgs p (some img), false) ∧
      unpackStep image fs' slot [p] (Function.update imgs p (some img))
        = (Function.update imgs p (some img), true) := by
  obtain ⟨err, herr⟩ := h
  have hto := extractTo_error herr
  refine ⟨_, by rw [hto], ?_, ?_⟩
  · have hmain : main (fs p) slot p none
        = (some (extract (fs p) part extents CHUNK).1, false) := by
      rw [main, hbytes, htables]
      dsimp only
      rw [hselected, if_neg (by simp), extractAll, if_neg hsome, hto]
    rw [unpackStep, if_pos hlist, unpackLoop, if_pos hnone, hnone, hmain]
  · rw [unpackStep, if_pos hlist, unpackLoop_pass fs' slot [] (Function.update_self ..), unpackLoop]

/-- A partition of two sectors, the second of which the image does not have. -/
def cutExtents : List Extent := [⟨1, 0, 1, 0⟩, ⟨1, 0, 2, 0⟩]

theorem extract_cut : ∃ err, extract slowReader ⟨"a".toList, 0, 0, 2, 0⟩ cutExtents 3
    = (List.replicate 512 7, .error (.lp err)) := by
  have hlength : slowReader.bytes.length = 1024 := List.length_replicate
  have hfirst : Readable slowReader ⟨1, 0, 1, 0⟩ := by
    refine Or.inr ⟨rfl, fun k hk => ?_⟩
    rw [hlength]
    simp only [Extent.size, SECTOR_SIZE] at hk ⊢
    omega
  have hsecond : ¬ Readable slowReader ⟨1, 0, 2, 0⟩ := by
    rintro (hzero | ⟨-, hin⟩)
    · exact absurd hzero (by decide)
    · have := hin 0 (by decide)
      rw [hlength] at this
      exact absurd this (by decide)
  have hcontent : content slowReader ⟨1, 0, 1, 0⟩ = List.replicate 512 7 := by
    rw [content_linear slowReader rfl, slowReader, window, List.drop_replicate,
      List.take_replicate]
    exact congrArg (List.replicate · 7) (by decide)
  have hpast : content slowReader ⟨1, 0, 2, 0⟩ = [] := by
    rw [content_linear slowReader rfl, window, List.drop_eq_nil_of_le (by rw [hlength]; decide),
      List.take_nil]
  have hparts : extentsOf ⟨"a".toList, 0, 0, 2, 0⟩ cutExtents
      = [some ⟨1, 0, 1, 0⟩, some ⟨1, 0, 2, 0⟩] := rfl
  obtain ⟨f', hbytes, hrun⟩ := extractLoop_readable 3 "a".toList hfirst
    [some ⟨1, 0, 2, 0⟩] 0
  obtain ⟨err, f'', hfails⟩ := extractLoop_unreadable 3 "a".toList
    (fun hread => hsecond ((readable_congr hbytes).mp hread)) [] (0 + Extent.size ⟨1, 0, 1, 0⟩)
  rw [extract, hparts, hrun, hfails, content_congr hbytes, hcontent, hpast, List.append_nil]
  exact ⟨err, rfl⟩

theorem failed_extract_leaves_cut :
    ¬ LeavesNothing slowReader ⟨"a".toList, 0, 0, 2, 0⟩ cutExtents 3 ∧
      ∃ img err, extractTo slowReader ⟨"a".toList, 0, 0, 2, 0⟩ cutExtents 3
          = (some img, .error err) ∧
        Leftover slowReader ⟨"a".toList, 0, 0, 2, 0⟩ cutExtents img := by
  obtain ⟨err, hcut⟩ := extract_cut
  obtain ⟨hleaves, img, err', hto, hleft, -⟩ :=
    failed_extract_leaves slowReader ⟨"a".toList, 0, 0, 2, 0⟩ cutExtents 3 ⟨.lp err, by rw [hcut]⟩
  exact ⟨hleaves, img, err', hto, hleft (by decide)⟩

/-- The image that is left has 512 of the 1024 bytes of the partition. -/
theorem leftover_cut : (∃ err, (extractTo slowReader ⟨"a".toList, 0, 0, 2, 0⟩ cutExtents 3).2
      = .error (.lp err)) ∧
    ¬ LeavesNothing slowReader ⟨"a".toList, 0, 0, 2, 0⟩ cutExtents 3 ∧
    (extractTo slowReader ⟨"a".toList, 0, 0, 2, 0⟩ cutExtents 3).1 = some (List.replicate 512 7) ∧
    partitionSize ⟨"a".toList, 0, 0, 2, 0⟩ cutExtents = .ok 1024 := by
  obtain ⟨err, hcut⟩ := extract_cut
  rw [LeavesNothing, extractTo, hcut]
  exact ⟨⟨err, rfl⟩, nofun, rfl, rfl⟩

end Leftover

end LpUnpack

end PalmaEos
