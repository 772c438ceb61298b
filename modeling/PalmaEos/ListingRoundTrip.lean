import PalmaEos.Listing
import PalmaEos.LpReaders

/-!
# Listings that `lpdump-from-super.py` prints

Both flashing scripts take the extents of a partition from the text that the script prints. They
find in it the LINEAR extents of the partition, in order, among them those without a sector when
some sector of the partition comes before them.

## Main results

* `namesPartition_heading` — the lines that `flash-logical-via-edl.py` takes for a heading
* `flash_extentsFor_lines`, `delta_extentsFor_lines` — either script on the printed lines
* `listing_round_trip` — the round trip from the metadata
-/

namespace PalmaEos

open LpDump (DumpedExtent extentLine extentLines headingLine separatorLine partitionLines)

/-- What the scripts find of a partition, from `sector` on. -/
def listedFrom (sector : ℕ) : List DumpedExtent → List ListedExtent
  | [] => []
  | (numSectors, targetType, targetData) :: es =>
    if targetType = 0 ∧ 0 < sector + numSectors then
      (targetData, (numSectors : ℤ)) :: listedFrom (sector + numSectors) es
    else listedFrom (sector + numSectors) es

/-- No whitespace in a name. -/
def Solid (name : Text) : Prop := ∀ c ∈ name, Text.isSpace c = false

instance (name : Text) : Decidable (Solid name) :=
  List.decidableBAll (fun c => Text.isSpace c = false) name

/-! ### The lines of an extent -/

theorem extentLine_eq (s x : ℕ) (last : ℤ) : extentLine s last x
    = ' ' :: ' ' :: ' ' :: ' ' :: (Text.ofNat s ++ ' ' :: ("..".toList ++ ' ' ::
      (Text.ofInt last ++ ' ' :: ("linear".toList ++ ' ' :: ("super".toList ++ ' ' ::
        (Text.ofNat x ++ ['\n'])))))) := by
  have hindent : "    ".toList = [' ', ' ', ' ', ' '] := rfl
  have hdots : " .. ".toList = ' ' :: ("..".toList ++ [' ']) := rfl
  have hlinear : " linear super ".toList
      = ' ' :: ("linear".toList ++ ' ' :: ("super".toList ++ [' '])) := rfl
  unfold extentLine
  -- the literals are kept from being evaluated
  generalize "    ".toList = indent, " .. ".toList = dots, " linear super ".toList = linear,
    "..".toList = dots', "linear".toList = linear', "super".toList = super at *
  subst hindent hdots hlinear
  simp only [List.append_assoc, List.cons_append, List.nil_append]

/-- A printed extent is found, unless its last sector would be negative. -/
theorem lineExtent_printed (s n x : ℕ) : lineExtent (extentLine s ((s + n : ℕ) - 1) x)
    = if 0 < s + n then some (x, (n : ℤ)) else none := by
  have hspace : Text.digitValue ' ' = none := by decide
  have hend : Text.digitValue '\n' = none := by decide
  have hdots : ∀ l, Text.skipSpaces ("..".toList ++ l) = "..".toList ++ l := fun l => rfl
  have hlinear : ∀ l, Text.skipSpaces ("linear".toList ++ l) = "linear".toList ++ l := fun l => rfl
  have hsuper : ∀ l, Text.skipSpaces ("super".toList ++ l) = "super".toList ++ l := fun l => rfl
  have hminus : ∀ l, Text.number (Text.skipSpaces ('-' :: l)) = none := fun l => rfl
  rw [lineExtent, extentLine_eq, matchExtentLine]
  cases hk : s + n with
  | zero =>
    rw [show ((0 : ℕ) : ℤ) - 1 = Int.negSucc 0 from rfl, if_neg (lt_irrefl 0)]
    simp only [Text.skipSpaces_space, Text.skipSpaces_ofNat, Text.number_ofNat _ _ hspace,
      Option.bind_eq_bind, Option.bind_some, hdots, Text.literal_append, Text.ofInt,
      List.cons_append, hminus, Option.bind_none, Option.map_none]
  | succ k =>
    rw [show ((k + 1 : ℕ) : ℤ) - 1 = Int.ofNat k by push_cast; exact add_sub_cancel_right _ _,
      if_pos k.succ_pos]
    simp only [Text.skipSpaces_space, Text.skipSpaces_ofNat, Text.number_ofNat _ _ hspace,
      Option.bind_eq_bind, Option.bind_some, hdots, Text.literal_append, Text.spaces_space,
      hlinear, hsuper, Text.ofInt, Text.number_ofNat x [] hend]
    change some (x, (k : ℤ) - s + 1) = _
    rw [show (k : ℤ) - s + 1 = n by omega]

theorem filterMap_extentLines (s : ℕ) (es : List DumpedExtent) :
    (extentLines s es).filterMap lineExtent = listedFrom s es := by
  induction es generalizing s with
  | nil => rfl
  | cons e es ih =>
    obtain ⟨n, t, x⟩ := e
    rw [extentLines, listedFrom]
    by_cases ht : t = 0
    · by_cases hn : 0 < s + n
      · rw [if_pos ht, if_pos ⟨ht, hn⟩, List.filterMap_cons, lineExtent_printed, if_pos hn, ih]
      · rw [if_pos ht, if_neg (fun h => hn h.2), List.filterMap_cons, lineExtent_printed,
          if_neg hn, ih]
    · rw [if_neg ht, if_neg (fun h => ht h.1), ih]

theorem exists_of_mem_extentLines {s : ℕ} {es : List DumpedExtent} {line : Text}
    (h : line ∈ extentLines s es) : ∃ first last x, line = extentLine first last x := by
  induction es generalizing s with
  | nil => exact absurd h List.not_mem_nil
  | cons e es ih =>
    obtain ⟨n, t, x⟩ := e
    rw [extentLines] at h
    split_ifs at h
    · rcases List.mem_cons.mp h with rfl | h
      · exact ⟨_, _, _, rfl⟩
      · exact ih h
    · exact ih h

/-- The characters of an extent line before its end. -/
theorem extentLine_chars (s x : ℕ) (last : ℤ) : ∃ w, extentLine s last x = w ++ ['\n'] ∧
    ∀ c ∈ w, c.isDigit = true ∨ c ∈ " .-linearsup".toList := by
  have hindent : "    ".toList ⊆ " .-linearsup".toList := by decide
  have hdots : " .. ".toList ⊆ " .-linearsup".toList := by decide
  have hlinear : " linear super ".toList ⊆ " .-linearsup".toList := by decide
  have hminus : '-' ∈ " .-linearsup".toList := by decide
  refine ⟨_, rfl, ?_⟩
  intro c hc
  simp only [List.mem_append] at hc
  rcases hc with ((((hc | hc) | hc) | hc) | hc) | hc
  · exact Or.inr (hindent hc)
  · exact Or.inl (Text.isDigit_of_mem_ofNat hc)
  · exact Or.inr (hdots hc)
  · cases last with
    | ofNat n => exact Or.inl (Text.isDigit_of_mem_ofNat hc)
    | negSucc n =>
      rcases List.mem_cons.mp hc with rfl | hc
      · exact Or.inr hminus
      · exact Or.inl (Text.isDigit_of_mem_ofNat hc)
  · exact Or.inr (hlinear hc)
  · exact Or.inl (Text.isDigit_of_mem_ofNat hc)

/-! ### Headings -/

section Heading

variable {part name l : Text} {c : Char}

theorem tag_eq : "Name:".toList = ['N', 'a', 'm', 'e', ':'] := rfl

theorem literal_tag_cons (hc : c ≠ 'N') : Text.literal "Name:".toList (c :: l) = none := by
  rw [tag_eq, Text.literal, if_neg]
  intro h
  obtain ⟨t, ht⟩ := List.isPrefixOf_iff_prefix.mp h
  exact hc (List.cons.inj ht).1.symm

/-- No heading begins at another letter. -/
theorem namesPartition_cons (hc : c ≠ 'N') : FlashLogical.namesPartition part (c :: l)
    = FlashLogical.namesPartition part l := by
  rw [FlashLogical.namesPartition, List.tails, List.any_cons, literal_tag_cons hc,
    Bool.false_or]
  rfl

theorem namesPartition_nil : FlashLogical.namesPartition part [] = false := by
  rw [FlashLogical.namesPartition, List.tails, List.any_cons, tag_eq]
  rfl

theorem namesPartition_of_not_mem {line : Text} (h : 'N' ∉ line) :
    FlashLogical.namesPartition part line = false := by
  induction line with
  | nil => exact namesPartition_nil
  | cons c line ih =>
    rw [List.mem_cons, not_or] at h
    rw [namesPartition_cons (Ne.symm h.1), ih h.2]

theorem matchName_of_not_mem {line : Text} (h : 'N' ∉ line) : DeltaFlash.matchName line = none := by
  rw [DeltaFlash.matchName]
  cases hlit : Text.literal "Name:".toList (Text.skipSpaces line) with
  | none => rfl
  | some l =>
    have heq := Text.literal_eq_some hlit
    have hmem : 'N' ∈ Text.skipSpaces line := by
      rw [heq, tag_eq]
      exact List.mem_cons_self
    exact absurd ((List.dropWhile_suffix _).subset hmem) h

/-- A solid name is closed by itself only. -/
theorem closesLine_name (hname : Solid name) (hpart : Solid part) :
    FlashLogical.closesLine part (name ++ ['\n']) = decide (part = name) := by
  have hnewline : Text.isSpace '\n' = true := by decide
  rw [FlashLogical.closesLine, Bool.eq_iff_iff, Bool.and_eq_true, decide_eq_true_iff,
    List.isPrefixOf_iff_prefix]
  constructor
  · rintro ⟨⟨rest, hrest⟩, hspaces⟩
    rw [← hrest, List.drop_left] at hspaces
    -- what follows the name is the newline, as neither has a space
    rcases List.eq_nil_or_concat rest with rfl | ⟨w, c, rfl⟩
    · have hmem : '\n' ∈ part := by
        rw [← List.append_nil part, hrest]
        exact List.mem_append_right _ List.mem_cons_self
      exact absurd hnewline (by rw [hpart _ hmem]; decide)
    · rw [List.concat_eq_append, ← List.append_assoc] at hrest
      obtain ⟨hw, -⟩ := List.append_inj' hrest rfl
      cases w with
      | nil => rwa [List.append_nil] at hw
      | cons c' w =>
        have hmem : c' ∈ name := by
          rw [← hw]
          exact List.mem_append_right _ List.mem_cons_self
        have hspace := List.all_eq_true.mp hspaces c' (by simp)
        exact absurd hspace (by rw [hname _ hmem]; decide)
  · rintro rfl
    refine ⟨List.prefix_append _ _, ?_⟩
    rw [List.drop_left, List.all_cons, hnewline]
    rfl

/-- After the tag, a solid name is matched by itself only. -/
theorem spacesThenPart_heading (hname : Solid name) (hne : name ≠ []) (hpart : Solid part) :
    FlashLogical.spacesThenPart part (' ' :: (name ++ ['\n'])) = decide (part = name) := by
  obtain ⟨c, w, rfl⟩ := List.exists_cons_of_ne_nil hne
  have hc := hname c List.mem_cons_self
  rw [FlashLogical.spacesThenPart, closesLine_name hname hpart, List.cons_append,
    FlashLogical.spacesThenPart, hc, Bool.false_and, Bool.or_false]
  rfl

theorem namesPartition_unfold : FlashLogical.namesPartition part (c :: l) = true ↔
    (∃ l', Text.literal "Name:".toList (c :: l) = some l' ∧
      FlashLogical.spacesThenPart part l' = true) ∨ FlashLogical.namesPartition part l = true := by
  rw [FlashLogical.namesPartition, List.tails, List.any_cons, Bool.or_eq_true]
  refine or_congr ?_ Iff.rfl
  cases Text.literal "Name:".toList (c :: l) with
  | none => simp
  | some l' => simp

/-- A tag inside a name counts for the empty name only, at the end of the line. -/
theorem namesPartition_name (hname : Solid name) :
    FlashLogical.namesPartition part (name ++ ['\n']) = true ↔
      part = [] ∧ "Name:".toList <:+ name := by
  induction name with
  | nil =>
    rw [List.nil_append, namesPartition_cons (by decide), namesPartition_nil, tag_eq]
    simp
  | cons c name ih =>
    have hrest : Solid name := fun x hx => hname x (List.mem_cons_of_mem _ hx)
    rw [List.cons_append, namesPartition_unfold, ih hrest, List.suffix_cons_iff, and_or_left]
    refine or_congr_left ?_
    constructor
    · rintro ⟨l', hlit, hspaces⟩
      have heq := Text.literal_eq_some hlit
      rw [← List.cons_append] at heq
      -- the tag does not reach into the newline
      obtain ⟨w, rfl⟩ : ∃ w, l' = w ++ ['\n'] := by
        rcases List.eq_nil_or_concat l' with rfl | ⟨w, x, rfl⟩
        · rw [List.append_nil, tag_eq] at heq
          have hlast : (c :: name ++ ['\n']).getLast? = some '\n' := List.getLast?_concat
          rw [heq] at hlast
          exact absurd hlast (by decide)
        · rw [List.concat_eq_append, ← List.append_assoc] at heq
          obtain ⟨-, hx⟩ := List.append_inj' heq rfl
          exact ⟨w, by rw [List.concat_eq_append, ← hx]⟩
      rw [← List.append_assoc] at heq
      obtain ⟨hcons, -⟩ := List.append_inj' heq rfl
      cases w with
      | nil =>
        rw [List.append_nil] at hcons
        refine ⟨?_, hcons.symm⟩
        cases part with
        | nil => rfl
        | cons x part => exact absurd hspaces (by simp [FlashLogical.spacesThenPart,
            FlashLogical.closesLine])
      | cons x w =>
        have hx := hname x (by rw [hcons]; simp)
        rw [List.cons_append, FlashLogical.spacesThenPart, hx, Bool.false_and] at hspaces
        exact absurd hspaces (by decide)
    · rintro ⟨rfl, htag⟩
      refine ⟨['\n'], ?_, by decide⟩
      rw [← List.cons_append, ← htag, Text.literal_append]

/-- **The headings of a partition.** The line is a heading for its own name, and for the empty name
if the name ends in a tag. -/
theorem namesPartition_heading (hname : Solid name) (hne : name ≠ []) (hpart : Solid part) :
    FlashLogical.namesPartition part (headingLine name) = true ↔
      part = name ∨ part = [] ∧ "Name:".toList <:+ name := by
  have hskip : FlashLogical.namesPartition part ("ame: ".toList ++ (name ++ ['\n'])) = true ↔
      part = [] ∧ "Name:".toList <:+ name := by
    rw [show "ame: ".toList = ['a', 'm', 'e', ':', ' '] from rfl]
    simp only [List.cons_append, List.nil_append]
    rw [namesPartition_cons (by decide), namesPartition_cons (by decide),
      namesPartition_cons (by decide), namesPartition_cons (by decide),
      namesPartition_cons (by decide), namesPartition_name hname]
  have hlit : Text.literal "Name:".toList ('N' :: ("ame: ".toList ++ (name ++ ['\n'])))
      = some (' ' :: (name ++ ['\n'])) := by
    have htag : 'N' :: ("ame: ".toList ++ (name ++ ['\n']))
        = "Name:".toList ++ ' ' :: (name ++ ['\n']) := by
      rw [show "ame: ".toList = ['a', 'm', 'e', ':', ' '] from rfl, tag_eq]
      rfl
    rw [htag, Text.literal_append]
  have hline : headingLine name = ' ' :: ' ' :: 'N' :: ("ame: ".toList ++ (name ++ ['\n'])) := by
    have hhead : "  Name: ".toList = ' ' :: ' ' :: 'N' :: "ame: ".toList := rfl
    unfold headingLine
    generalize "  Name: ".toList = head, "ame: ".toList = tail at *
    rw [hhead, List.append_assoc]
    rfl
  rw [hline, namesPartition_cons (by decide), namesPartition_cons (by decide),
    namesPartition_unfold, hskip]
  refine or_congr_left ?_
  constructor
  · rintro ⟨l', hl', hspaces⟩
    rw [hlit, Option.some.injEq] at hl'
    subst hl'
    rw [spacesThenPart_heading hname hne hpart] at hspaces
    exact of_decide_eq_true hspaces
  · intro hsame
    refine ⟨_, hlit, ?_⟩
    rw [spacesThenPart_heading hname hne hpart]
    exact decide_eq_true hsame

/-- The other script takes the name from its own heading. -/
theorem matchName_heading (hname : Solid name) (hne : name ≠ []) :
    DeltaFlash.matchName (headingLine name) = some name := by
  have hnewline : Text.isSpace '\n' = true := by decide
  obtain ⟨c, w, rfl⟩ := List.exists_cons_of_ne_nil hne
  have hc := hname c List.mem_cons_self
  have hline : headingLine (c :: w)
      = ' ' :: ' ' :: ("Name:".toList ++ ' ' :: (c :: w ++ ['\n'])) := by
    have hhead : "  Name: ".toList = ' ' :: ' ' :: ("Name:".toList ++ [' ']) := rfl
    unfold headingLine
    generalize "  Name: ".toList = head, "Name:".toList = tag at *
    rw [hhead]
    simp only [List.cons_append, List.append_assoc, List.nil_append]
  have htag : ∀ l, Text.skipSpaces ("Name:".toList ++ l) = "Name:".toList ++ l := fun l => rfl
  have hword : (c :: w ++ ['\n']).takeWhile (! Text.isSpace ·) = c :: w := by
    rw [List.takeWhile_append_of_pos (fun x hx => by rw [hname x hx]; rfl), List.takeWhile_cons,
      hnewline]
    simp
  rw [DeltaFlash.matchName, hline, Text.skipSpaces_space, Text.skipSpaces_space, htag,
    Text.literal_append]
  change Text.word (Text.skipSpaces (' ' :: (c :: w ++ ['\n']))) = _
  rw [Text.skipSpaces_space, List.cons_append, Text.skipSpaces_cons hc, ← List.cons_append,
    Text.word, hword]
  rfl

end Heading

/-! ### The scripts on the printed lines -/

section Scripts

variable {part : Text} {parts : List (Text × List DumpedExtent)}

/-- Lines that are neither a heading nor the end of a section. -/
def Quiet (part line : Text) : Prop :=
  FlashLogical.namesPartition part line = false ∧ FlashLogical.endsSection line = false ∧
    DeltaFlash.matchName line = none

theorem quiet_extentLine (s x : ℕ) (last : ℤ) : Quiet part (extentLine s last x) := by
  have hnotmem : 'N' ∉ extentLine s last x := by
    obtain ⟨w, hw, hchars⟩ := extentLine_chars s x last
    rw [hw, List.mem_append]
    rintro (h | h)
    · rcases hchars _ h with hdigit | hliteral
      · exact absurd hdigit (by decide)
      · exact absurd hliteral (by decide)
    · exact absurd h (by decide)
  refine ⟨namesPartition_of_not_mem hnotmem, ?_, matchName_of_not_mem hnotmem⟩
  obtain ⟨d, l, hd, hl⟩ := Text.ofNat_eq_cons s
  rw [FlashLogical.endsSection, extentLine_eq, Text.skipSpaces_space, Text.skipSpaces_space,
    Text.skipSpaces_space, Text.skipSpaces_space, Text.skipSpaces_ofNat, hl]
  have hdash : ∀ d < 10, Nat.digitChar d ≠ '-' := by decide
  rw [show "---".toList = ['-', '-', '-'] from rfl, List.cons_append,
    List.isPrefixOf_cons_cons]
  simp [Ne.symm (hdash d hd)]

theorem quiet_of_mem_extentLines {s : ℕ} {es : List DumpedExtent} {line : Text}
    (h : line ∈ extentLines s es) : Quiet part line := by
  obtain ⟨first, last, x, rfl⟩ := exists_of_mem_extentLines h
  exact quiet_extentLine first x last

theorem flash_extentsFrom_quiet {lines rest : List Text} (h : ∀ line ∈ lines, Quiet part line) :
    FlashLogical.extentsFrom part true (lines ++ rest)
      = lines.filterMap lineExtent ++ FlashLogical.extentsFrom part true rest := by
  induction lines with
  | nil => rfl
  | cons line lines ih =>
    obtain ⟨⟨hname, hend, -⟩, hrest⟩ := List.forall_mem_cons.mp h
    rw [List.cons_append, FlashLogical.extentsFrom, hname, hend, List.filterMap_cons, ih hrest]
    cases lineExtent line <;> rfl

/-- Outside its section the script skips everything that is no heading of its partition. -/
theorem flash_extentsFrom_outside {lines rest : List Text}
    (h : ∀ line ∈ lines, FlashLogical.namesPartition part line = false) :
    FlashLogical.extentsFrom part false (lines ++ rest)
      = FlashLogical.extentsFrom part false rest := by
  induction lines with
  | nil => rfl
  | cons line lines ih =>
    obtain ⟨hname, hrest⟩ := List.forall_mem_cons.mp h
    rw [List.cons_append, FlashLogical.extentsFrom, hname, ih hrest]
    rfl

theorem delta_extentsFrom_quiet {lines rest : List Text} {cur : Option Text}
    (h : ∀ line ∈ lines, DeltaFlash.matchName line = none) :
    DeltaFlash.extentsFrom part cur (lines ++ rest)
      = (if cur = some part then lines.filterMap lineExtent else []) ++
        DeltaFlash.extentsFrom part cur rest := by
  induction lines with
  | nil => split_ifs <;> rfl
  | cons line lines ih =>
    obtain ⟨hname, hrest⟩ := List.forall_mem_cons.mp h
    rw [List.cons_append, DeltaFlash.extentsFrom, hname]
    by_cases hcur : cur = some part
    · rw [if_pos hcur] at ih ⊢
      simp only [hcur, ne_eq, not_true, if_false, List.filterMap_cons]
      rw [hcur] at ih
      rw [ih hrest]
      cases lineExtent line <;> rfl
    · rw [if_neg hcur] at ih ⊢
      simp only [ne_eq, hcur, not_false_eq_true, if_true]
      exact ih hrest

theorem quiet_separatorLine : 'N' ∉ separatorLine ∧ FlashLogical.endsSection separatorLine = true ∧
    lineExtent separatorLine = none := by
  decide

/-- Names that can be told apart in a listing. -/
structure Listable (parts : List (Text × List DumpedExtent)) : Prop where
  solid : ∀ p ∈ parts, Solid p.1
  nonempty : ∀ p ∈ parts, p.1 ≠ []

/-- `flash-logical-via-edl.py` reads the first section with a heading of its partition. -/
theorem flash_extentsFor_lines (h : Listable parts) (hpart : Solid part) :
    FlashLogical.extentsFor (parts.flatMap partitionLines) part
      = ((parts.find? fun p => decide (part = p.1 ∨ part = [] ∧ "Name:".toList <:+ p.1)).elim []
          fun p => listedFrom 0 p.2) := by
  rw [FlashLogical.extentsFor]
  induction parts with
  | nil => rfl
  | cons p parts ih =>
    obtain ⟨hsep, hend, hnone⟩ := quiet_separatorLine
    have hhead := namesPartition_heading (h.solid p List.mem_cons_self)
      (h.nonempty p List.mem_cons_self) hpart
    have ih := ih ⟨fun q hq => h.solid q (List.mem_cons_of_mem _ hq),
      fun q hq => h.nonempty q (List.mem_cons_of_mem _ hq)⟩
    have hquiet : ∀ line ∈ extentLines 0 p.2, Quiet part line :=
      fun line hline => quiet_of_mem_extentLines hline
    rw [List.flatMap_cons, partitionLines, List.find?_cons]
    by_cases hp : part = p.1 ∨ part = [] ∧ "Name:".toList <:+ p.1
    · rw [decide_eq_true hp, List.cons_append, FlashLogical.extentsFrom, hhead.mpr hp,
        List.append_assoc]
      change FlashLogical.extentsFrom part true _ = listedFrom 0 p.2
      rw [flash_extentsFrom_quiet hquiet, filterMap_extentLines, List.singleton_append,
        FlashLogical.extentsFrom, namesPartition_of_not_mem hsep, hend]
      exact List.append_nil _
    · rw [decide_eq_false hp, ← ih, flash_extentsFrom_outside]
      refine List.forall_mem_cons.mpr ⟨?_, ?_⟩
      · exact Bool.eq_false_iff.mpr fun hheading => hp (hhead.mp hheading)
      · intro line hline
        rcases List.mem_append.mp hline with hline | hline
        · exact (hquiet line hline).1
        · rw [List.mem_singleton.mp hline]
          exact namesPartition_of_not_mem hsep

/-- `edl-delta-flash.py` reads every section of its partition. -/
theorem delta_extentsFor_lines (h : Listable parts) :
    DeltaFlash.extentsFor (parts.flatMap partitionLines) part
      = (parts.filter fun p => p.1 = part).flatMap fun p => listedFrom 0 p.2 := by
  rw [DeltaFlash.extentsFor]
  generalize (none : Option Text) = cur
  induction parts generalizing cur with
  | nil => rfl
  | cons p parts ih =>
    obtain ⟨hsep, -, hnone⟩ := quiet_separatorLine
    have hhead := matchName_heading (h.solid p List.mem_cons_self)
      (h.nonempty p List.mem_cons_self)
    have ih := ih ⟨fun q hq => h.solid q (List.mem_cons_of_mem _ hq),
      fun q hq => h.nonempty q (List.mem_cons_of_mem _ hq)⟩
    have hquiet : ∀ line ∈ extentLines 0 p.2 ++ [separatorLine],
        DeltaFlash.matchName line = none := by
      intro line hline
      rcases List.mem_append.mp hline with hline | hline
      · have hquiet : Quiet part line := quiet_of_mem_extentLines hline
        exact hquiet.2.2
      · rw [List.mem_singleton.mp hline]
        exact matchName_of_not_mem hsep
    rw [List.flatMap_cons, partitionLines, List.cons_append, DeltaFlash.extentsFrom, hhead]
    change DeltaFlash.extentsFrom part (some p.1) _ = _
    rw [delta_extentsFrom_quiet hquiet, ih, List.filterMap_append, filterMap_extentLines,
      List.filterMap_cons, hnone, List.filterMap_nil, List.append_nil, List.filter_cons]
    by_cases hp : p.1 = part
    · rw [if_pos (congrArg some hp), if_pos (decide_eq_true hp), List.flatMap_cons]
    · rw [if_neg (fun heq => hp (Option.some.inj heq)), if_neg (by rw [decide_eq_false hp]; decide),
        List.nil_append]

end Scripts

/-! ### From the metadata to the extents -/

section RoundTrip

open LpResize (Slot Metadata logicalPartitions LogicalPartition dumpedOf)

variable {image : Bytes} {base slotSize : ℕ} {m : Metadata} {g : LpUnpack.Geometry} {slot : ℤ}

/-- The printed lines survive the file. -/
theorem readlines_lines {parts : List (Text × List DumpedExtent)} (h : Listable parts) :
    Text.readlines (parts.flatMap partitionLines).flatten = parts.flatMap partitionLines := by
  refine Text.readlines_flatten ?_
  intro line hline
  obtain ⟨p, hp, hline⟩ := List.mem_flatMap.mp hline
  rw [partitionLines, List.mem_cons, List.mem_append, List.mem_singleton] at hline
  rcases hline with rfl | hline | rfl
  · have hmem : ∀ c, Text.isSpace c = true → c ∉ "  Name: ".toList →
        c ∉ "  Name: ".toList ++ p.1 := by
      intro c hc hhead hmem
      rcases List.mem_append.mp hmem with hmem | hmem
      · exact hhead hmem
      · rw [h.solid p hp c hmem] at hc
        exact absurd hc (by decide)
    exact ⟨_, rfl, hmem _ (by decide) (by decide), hmem _ (by decide) (by decide)⟩
  · obtain ⟨s, last, x, rfl⟩ := exists_of_mem_extentLines hline
    obtain ⟨w, hw, hchars⟩ := extentLine_chars s x last
    refine ⟨w, hw, fun hmem => ?_, fun hmem => ?_⟩
    · exact absurd (hchars _ hmem) (by decide)
    · exact absurd (hchars _ hmem) (by decide)
  · exact ⟨"  ------------------------".toList, by decide⟩

/-- What the scripts find are the extents with sectors, and some without. -/
theorem filter_listedFrom (s : ℕ) (es : List DumpedExtent) :
    (listedFrom s es).filter (fun e => 0 < e.2)
      = es.filterMap fun e => if e.2.1 = 0 ∧ 0 < e.1 then some (e.2.2, (e.1 : ℤ)) else none := by
  induction es generalizing s with
  | nil => rfl
  | cons e es ih =>
    obtain ⟨n, t, x⟩ := e
    rw [listedFrom, List.filterMap_cons]
    by_cases ht : t = 0
    · by_cases hn : 0 < n
      · rw [if_pos ⟨ht, by omega⟩, List.filter_cons_of_pos (by simpa using hn), ih, if_pos ⟨ht, hn⟩]
      · have hnew : ¬ ((n, t, x).2.1 = 0 ∧ 0 < (n, t, x).1) := fun h => hn h.2
        rw [if_neg hnew]
        split_ifs with hs
        · rw [List.filter_cons_of_neg (by simpa using hn), ih]
        · exact ih _
    · rw [if_neg (fun h => ht h.1), if_neg (fun h => ht h.1), ih]

/-- The pairs of physical sector and length that a partition's LINEAR extents with at least one
sector give. -/
def linearPairs (p : LogicalPartition) : List ListedExtent :=
  p.extents.filterMap fun e =>
    if e.targetType = 0 ∧ 0 < e.numSectors then some (e.targetData, (e.numSectors : ℤ)) else none

/-- Finding the one record with a key. -/
theorem find?_of_nodup {α β : Type*} {xs : List (α × β)} {x : α × β} {p : α × β → Bool}
    (hkeys : (xs.map Prod.fst).Nodup) (hx : x ∈ xs) (hp : ∀ y ∈ xs, p y = true ↔ y.1 = x.1) :
    xs.find? p = some x := by
  cases hfind : xs.find? p with
  | none => exact absurd ((hp x hx).mpr rfl) (List.find?_eq_none.mp hfind x hx)
  | some y =>
    have hy := List.mem_of_find?_eq_some hfind
    have hkey := (hp y hy).mp (List.find?_some hfind)
    rw [List.inj_on_of_nodup_map hkeys hy hx hkey]

/-- The records with the key of one of them. -/
theorem filter_of_nodup {α β : Type*} [DecidableEq α] [DecidableEq β] {xs : List (α × β)}
    {x : α × β} (hkeys : (xs.map Prod.fst).Nodup) (hx : x ∈ xs) :
    xs.filter (fun y => y.1 = x.1) = [x] := by
  have hsame : xs.filter (fun y => y.1 = x.1) = xs.filter (· = x) := by
    refine List.filter_congr fun y hy => ?_
    rw [decide_eq_decide]
    exact ⟨fun hkey => List.inj_on_of_nodup_map hkeys hy hx hkey, fun heq => heq ▸ rfl⟩
  rw [hsame, List.filter_eq, List.count_eq_one_of_mem hkeys.of_map hx, List.replicate_one]

/-- **The round trip.** On the text that `lpdump-from-super.py` prints for well-formed metadata both
scripts find the same extents of a partition: the LINEAR ones in order, except those without a
sector before which the partition has none. They find nothing for another name, except that
`flash-logical-via-edl.py` takes a name that ends in `Name:` for a heading of the empty name. -/
theorem listing_round_trip (h : Slot image base slotSize m)
    (hg : LpUnpack.readGeometry image = .ok g) (hbase : LpUnpack.slotOffset g slot = base)
    (hdistinct : ((logicalPartitions image m).map LogicalPartition.name).Nodup)
    (hnames : ∀ p ∈ logicalPartitions image m, p.name ≠ [] ∧ Solid p.name) :
    ∃ lines, LpDump.parse image slot = .ok lines ∧
      (∀ p ∈ logicalPartitions image m,
        FlashLogical.extentsFor (Text.readlines lines.flatten) p.name
            = listedFrom 0 (p.extents.map dumpedOf) ∧
          DeltaFlash.extentsFor (Text.readlines lines.flatten) p.name
            = listedFrom 0 (p.extents.map dumpedOf) ∧
          (listedFrom 0 (p.extents.map dumpedOf)).filter (fun e => 0 < e.2) = linearPairs p) ∧
      ∀ name, Solid name → name ∉ (logicalPartitions image m).map LogicalPartition.name →
        DeltaFlash.extentsFor (Text.readlines lines.flatten) name = [] ∧
          ((name = [] → ∀ p ∈ logicalPartitions image m, ¬ "Name:".toList <:+ p.name) →
            FlashLogical.extentsFor (Text.readlines lines.flatten) name = []) := by
  obtain ⟨hlen, hmagic, hmax⟩ := LpResize.geometry_eq_ok hg
  have hslot : (12288 : ℤ) + slot * leAt 4 image 4136 = base := by
    rw [hmax, mul_comm]
    exact hbase
  have hdump := h.dump_reads hlen hmagic hslot
  have hlist : Listable ((logicalPartitions image m).map
      fun p => (p.name, p.extents.map dumpedOf)) :=
    ⟨List.forall_mem_map.mpr fun p hp => (hnames p hp).2,
      List.forall_mem_map.mpr fun p hp => (hnames p hp).1⟩
  refine ⟨_, bind_eq_ok.mpr ⟨_, hdump, rfl⟩, ?_, ?_⟩
  · intro p hp
    have hkeys : (((logicalPartitions image m).map
        fun p => (p.name, p.extents.map dumpedOf)).map Prod.fst).Nodup := by
      rw [List.map_map]
      exact hdistinct
    have hmem := List.mem_map_of_mem (f := fun p : LogicalPartition =>
      (p.name, p.extents.map dumpedOf)) hp
    have hne := (hnames p hp).1
    rw [readlines_lines hlist, flash_extentsFor_lines hlist (hnames p hp).2,
      delta_extentsFor_lines hlist, find?_of_nodup hkeys hmem, filter_of_nodup hkeys hmem]
    · refine ⟨rfl, List.flatMap_singleton .., ?_⟩
      rw [filter_listedFrom, List.filterMap_map, linearPairs]
      rfl
    · intro y _
      rw [decide_eq_true_iff]
      constructor
      · rintro (heq | ⟨hnil, -⟩)
        · exact heq.symm
        · exact absurd hnil hne
      · exact fun heq => Or.inl heq.symm
  · intro name hname hother
    rw [readlines_lines hlist, flash_extentsFor_lines hlist hname, delta_extentsFor_lines hlist]
    have hne : ∀ p ∈ logicalPartitions image m, p.name ≠ name :=
      fun p hp heq => hother (heq ▸ List.mem_map_of_mem hp)
    constructor
    · rw [List.filter_eq_nil_iff.mpr]
      · rfl
      · rw [List.forall_mem_map]
        intro p hp
        rw [decide_eq_true_iff]
        exact hne p hp
    · intro htag
      rw [List.find?_eq_none.mpr]
      · rfl
      · rw [List.forall_mem_map]
        intro p hp
        rw [decide_eq_true_iff]
        rintro (heq | ⟨hnil, hsuffix⟩)
        · exact hne p hp heq.symm
        · exact htag hnil p hp hsuffix

end RoundTrip

/-! ### Two dumps -/

section Small

open LpResize

/-- A slot that stands in a dump behind the geometry. -/
theorem slot_in_dump {blob : Bytes} {m : Metadata} (h : Slot blob 0 blob.length m) :
    Slot (smallHead ++ (blob ++ [])) 12288 blob.length (m.movedTo 12288) ∧
      logicalPartitions (smallHead ++ (blob ++ [])) (m.movedTo 12288)
        = logicalPartitions blob m := by
  refine h.placed ?_ (window_of_parts rfl length_smallHead)
  rw [List.length_append, List.length_append, length_smallHead]
  omega

/-- The slot number 0, in the geometry of these dumps. -/
theorem slotOffset_small : LpUnpack.slotOffset ⟨0, 512, 1, 4096⟩ 0 = (12288 : ℕ) := by decide

/-- A slot of 492 bytes: `a` has eight sectors at sector 4096 and sixteen at sector 2048, `b` has
none, and `c` has eight sectors of zeros and eight at sector 2064. -/
def listedSlot : Bytes :=
  toLE 4 HEADER_MAGIC ++ toLE 2 10 ++ toLE 2 2 ++ toLE 4 128 ++ toLE 32 0 ++ toLE 4 364 ++
    toLE 32 0 ++ toLE 12 (52 * 2 ^ 64 + 3 * 2 ^ 32) ++ toLE 12 (24 * 2 ^ 64 + 4 * 2 ^ 32 + 156) ++
    toLE 12 (48 * 2 ^ 64 + 1 * 2 ^ 32 + 252) ++ toLE 12 (64 * 2 ^ 64 + 1 * 2 ^ 32 + 300) ++
    toLE 36 97 ++ toLE 16 (2 * 2 ^ 64) ++
    toLE 36 98 ++ toLE 16 (2 * 2 ^ 32) ++
    toLE 36 99 ++ toLE 16 (2 * 2 ^ 64 + 2 * 2 ^ 32) ++
    toLE 8 8 ++ toLE 4 0 ++ toLE 8 4096 ++ toLE 4 0 ++
    toLE 8 16 ++ toLE 4 0 ++ toLE 8 2048 ++ toLE 4 0 ++
    toLE 8 8 ++ toLE 4 1 ++ toLE 8 0 ++ toLE 4 0 ++
    toLE 8 8 ++ toLE 4 0 ++ toLE 8 2064 ++ toLE 4 0 ++
    toLE 40 103 ++ toLE 8 (2 ^ 20) ++ toLE 8 2048 ++ toLE 8 0 ++ toLE 8 (2 ^ 30) ++ toLE 40 0

def listedMetadata : Metadata :=
  ⟨0, (10, 2), 128, 364, ⟨0, 3, 52⟩, ⟨156, 4, 24⟩, ⟨252, 1, 48⟩, ⟨300, 1, 64⟩⟩

theorem slot_listed : Slot listedSlot 0 492 listedMetadata where
  parsed := by decide +kernel
  slot_inside := by decide +kernel
  hdrSize := by decide
  tables_inside := by decide
  partitions_size := rfl
  extents_size := rfl
  groups_size := rfl
  devices_size := rfl
  ranges_inside := by decide +kernel

/-- The slot, alone behind the geometry. -/
def listedDump : Bytes := smallHead ++ (listedSlot ++ [])

theorem listing_round_trip_small : ∃ lines, LpDump.parse listedDump 0 = .ok lines ∧
    FlashLogical.extentsFor (Text.readlines lines.flatten) ['a'] = [(4096, 8), (2048, 16)] ∧
    DeltaFlash.extentsFor (Text.readlines lines.flatten) ['a'] = [(4096, 8), (2048, 16)] ∧
    FlashLogical.extentsFor (Text.readlines lines.flatten) ['b'] = [] ∧
    FlashLogical.extentsFor (Text.readlines lines.flatten) ['c'] = [(2064, 8)] ∧
    DeltaFlash.extentsFor (Text.readlines lines.flatten) ['c'] = [(2064, 8)] ∧
    DeltaFlash.extentsFor (Text.readlines lines.flatten) ['d'] = [] := by
  have hlength : listedSlot.length = 492 := by decide +kernel
  have hgeometry : LpUnpack.readGeometry listedDump = .ok ⟨0, 512, 1, 4096⟩ :=
    unpackGeometry_small _
  have hlisted : logicalPartitions listedSlot listedMetadata
      = [⟨['a'], 0, [⟨8, 0, 4096, 0⟩, ⟨16, 0, 2048, 0⟩], 0⟩, ⟨['b'], 0, [], 0⟩,
        ⟨['c'], 0, [⟨8, 1, 0, 0⟩, ⟨8, 0, 2064, 0⟩], 0⟩] := by
    decide +kernel
  obtain ⟨hslot, hparts⟩ := slot_in_dump (hlength.symm ▸ slot_listed)
  rw [hlisted] at hparts
  obtain ⟨lines, hparse, hown, hnone⟩ := listing_round_trip hslot hgeometry slotOffset_small
    (by rw [hparts]; decide) (by rw [hparts]; decide)
  rw [hparts] at hown hnone
  obtain ⟨hflash, hdelta, -⟩ := hown _ List.mem_cons_self
  obtain ⟨hflashb, -, -⟩ := hown _ (List.mem_cons_of_mem _ List.mem_cons_self)
  obtain ⟨hflashc, hdeltac, -⟩ :=
    hown _ (List.mem_cons_of_mem _ (List.mem_cons_of_mem _ List.mem_cons_self))
  exact ⟨lines, hparse, hflash, hdelta, hflashb, hflashc, hdeltac,
    (hnone ['d'] (by decide) (by decide)).1⟩

/-- A slot of 416 bytes: `a` has eight sectors at sector 2048 and none at sector 4096, and `Name:`
has eight at sector 2056. -/
def emptyExtentSlot : Bytes :=
  toLE 4 HEADER_MAGIC ++ toLE 2 10 ++ toLE 2 2 ++ toLE 4 128 ++ toLE 32 0 ++ toLE 4 288 ++
    toLE 32 0 ++ toLE 12 (52 * 2 ^ 64 + 2 * 2 ^ 32) ++ toLE 12 (24 * 2 ^ 64 + 3 * 2 ^ 32 + 104) ++
    toLE 12 (48 * 2 ^ 64 + 1 * 2 ^ 32 + 176) ++ toLE 12 (64 * 2 ^ 64 + 1 * 2 ^ 32 + 224) ++
    toLE 36 97 ++ toLE 16 (2 * 2 ^ 64) ++
    toLE 36 0x3a656d614e ++ toLE 16 (1 * 2 ^ 64 + 2 * 2 ^ 32) ++
    toLE 8 8 ++ toLE 4 0 ++ toLE 8 2048 ++ toLE 4 0 ++
    toLE 8 0 ++ toLE 4 0 ++ toLE 8 4096 ++ toLE 4 0 ++
    toLE 8 8 ++ toLE 4 0 ++ toLE 8 2056 ++ toLE 4 0 ++
    toLE 40 103 ++ toLE 8 (2 ^ 20) ++ toLE 8 2048 ++ toLE 8 0 ++ toLE 8 (2 ^ 30) ++ toLE 40 0

def emptyExtentMetadata : Metadata :=
  ⟨0, (10, 2), 128, 288, ⟨0, 2, 52⟩, ⟨104, 3, 24⟩, ⟨176, 1, 48⟩, ⟨224, 1, 64⟩⟩

theorem slot_emptyExtent : Slot emptyExtentSlot 0 416 emptyExtentMetadata where
  parsed := by decide +kernel
  slot_inside := by decide +kernel
  hdrSize := by decide
  tables_inside := by decide
  partitions_size := rfl
  extents_size := rfl
  groups_size := rfl
  devices_size := rfl
  ranges_inside := by decide +kernel

def emptyExtentDump : Bytes := smallHead ++ (emptyExtentSlot ++ [])

/-- The extent without a sector is listed, and the empty name has a section. -/
theorem listed_emptyExtent : ∃ m p lines, Slot emptyExtentDump 12288 416 m ∧
    LpUnpack.readGeometry emptyExtentDump = .ok ⟨0, 512, 1, 4096⟩ ∧
    ((logicalPartitions emptyExtentDump m).map LogicalPartition.name).Nodup ∧
    (∀ q ∈ logicalPartitions emptyExtentDump m, q.name ≠ [] ∧ Solid q.name) ∧
    p ∈ logicalPartitions emptyExtentDump m ∧ LpDump.parse emptyExtentDump 0 = .ok lines ∧
    linearPairs p = [(2048, 8)] ∧
    FlashLogical.extentsFor (Text.readlines lines.flatten) p.name = [(2048, 8), (4096, 0)] ∧
    DeltaFlash.extentsFor (Text.readlines lines.flatten) p.name = [(2048, 8), (4096, 0)] ∧
    FlashLogical.extentsFor (Text.readlines lines.flatten) [] = [(2056, 8)] := by
  have hlength : emptyExtentSlot.length = 416 := by decide +kernel
  have hgeometry : LpUnpack.readGeometry emptyExtentDump = .ok ⟨0, 512, 1, 4096⟩ :=
    unpackGeometry_small _
  have hsmall : logicalPartitions emptyExtentSlot emptyExtentMetadata
      = [⟨['a'], 0, [⟨8, 0, 2048, 0⟩, ⟨0, 0, 4096, 0⟩], 0⟩,
        ⟨"Name:".toList, 0, [⟨8, 0, 2056, 0⟩], 0⟩] := by
    decide +kernel
  obtain ⟨hslot, hparts⟩ := slot_in_dump (hlength ▸ slot_emptyExtent)
  change Slot emptyExtentDump 12288 _ _ at hslot
  change logicalPartitions emptyExtentDump _ = _ at hparts
  rw [hsmall] at hparts
  rw [hlength] at hslot
  obtain ⟨hlen, hmagic, hmax⟩ := geometry_eq_ok hgeometry
  have hoffset : (12288 : ℤ) + 0 * leAt 4 emptyExtentDump 4136 = (12288 : ℕ) := by
    rw [hmax]
    decide
  have hdump := hslot.dump_reads hlen hmagic hoffset
  rw [hparts] at hdump
  refine ⟨_, ⟨['a'], 0, [⟨8, 0, 2048, 0⟩, ⟨0, 0, 4096, 0⟩], 0⟩, _, hslot, hgeometry, ?_, ?_, ?_,
    bind_eq_ok.mpr ⟨_, hdump, rfl⟩, ?_, ?_, ?_, ?_⟩
  · rw [hparts]
    decide +kernel
  · rw [hparts]
    decide +kernel
  · rw [hparts]
    exact List.mem_cons_self
  all_goals decide +kernel

end Small

end PalmaEos
