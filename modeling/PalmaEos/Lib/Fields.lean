import Mathlib.Data.List.Basic

/-!
# Pieces that a separator ends

The lines of a text and the words of a shell variable are pieces of a list that a separator ends:
what stands behind the last separator is one more piece, unless it is empty.

A reader may take the ended pieces only and leave that one out, so the two parts have names of their
own.

## Main results

* `induct` — induction along the separators
* `exists_of_infix` — what has no separator and stands in the list stands in one of the pieces
* `fields_flatMap` — the pieces of a list that is written piece by piece
-/

namespace PalmaEos

namespace Fields

variable {α : Type*} (p : α → Bool)

/-- The pieces that a separator ends. -/
def ended (l : List α) : List (List α) := (l.splitOnP p).dropLast

/-- What stands behind the last separator. -/
def rest (l : List α) : List α := (l.splitOnP p).getLastD []

/-- All pieces. -/
def fields (l : List α) : List (List α) :=
  ended p l ++ match rest p l with
    | [] => []
    | c :: r => [c :: r]

variable {p} {a b l w : List α} {s : α}

section Equations

theorem ended_of_forall (h : ∀ c ∈ l, p c = false) : ended p l = [] := by
  rw [ended, List.splitOnP_eq_singleton h]
  rfl

theorem rest_of_forall (h : ∀ c ∈ l, p c = false) : rest p l = l := by
  rw [rest, List.splitOnP_eq_singleton h]
  rfl

theorem ended_append_cons (h : ∀ c ∈ a, p c = false) (hs : p s) :
    ended p (a ++ s :: b) = a :: ended p b := by
  rw [ended, List.splitOnP_append_cons a b hs, List.splitOnP_eq_singleton h, List.singleton_append,
    List.dropLast_cons_of_ne_nil (List.splitOnP_ne_nil p b), ended]

theorem rest_append_cons (a b : List α) (hs : p s) : rest p (a ++ s :: b) = rest p b := by
  rw [rest, rest, List.splitOnP_append_cons a b hs, List.getLastD_eq_getLast?,
    List.getLastD_eq_getLast?, List.getLast?_append_of_ne_nil _ (List.splitOnP_ne_nil p b)]

theorem fields_nil : fields p [] = [] := rfl

theorem fields_of_forall (h : ∀ c ∈ l, p c = false) (hne : l ≠ []) : fields p l = [l] := by
  obtain ⟨c, r, rfl⟩ := List.exists_cons_of_ne_nil hne
  rw [fields, ended_of_forall h, rest_of_forall h]
  rfl

theorem fields_append_cons (h : ∀ c ∈ a, p c = false) (hs : p s) :
    fields p (a ++ s :: b) = a :: fields p b := by
  rw [fields, fields, ended_append_cons h hs, rest_append_cons a b hs, List.cons_append]

end Equations

theorem mem_fields_iff {f : List α} : f ∈ fields p l ↔ f ∈ ended p l ∨ f ≠ [] ∧ f = rest p l := by
  rw [fields, List.mem_append]
  refine or_congr_right ?_
  cases rest p l with
  | nil => simp
  | cons c r =>
    rw [List.mem_singleton]
    exact ⟨fun h => ⟨h ▸ List.cons_ne_nil c r, h⟩, And.right⟩

/-- **Induction along the separators.** -/
theorem induct {P : List α → Prop} (hlast : ∀ l, (∀ c ∈ l, p c = false) → P l)
    (hsep : ∀ a s b, (∀ c ∈ a, p c = false) → p s → P b → P (a ++ s :: b)) (l : List α) : P l := by
  -- the piece that the induction is in is `a` so far
  have key : ∀ l a : List α, (∀ c ∈ a, p c = false) → P (a ++ l) := by
    intro l
    induction l with
    | nil =>
      intro a ha
      rw [List.append_nil]
      exact hlast a ha
    | cons c l ih =>
      intro a ha
      cases hc : p c with
      | true => exact hsep a c l ha hc (ih [] (List.forall_mem_nil _))
      | false =>
        rw [List.append_cons]
        refine ih _ fun x hx => ?_
        rcases List.mem_append.mp hx with hx | hx
        · exact ha x hx
        · rwa [List.mem_singleton.mp hx]
  exact key l [] (List.forall_mem_nil _)

/-- Only the separators that are there matter. -/
theorem fields_congr {q : α → Bool} (h : ∀ c ∈ l, p c = q c) : fields p l = fields q l := by
  induction l using induct (p := p) with
  | hlast l hl =>
    have hl' : ∀ c ∈ l, q c = false := fun c hc => (h c hc).symm.trans (hl c hc)
    rcases eq_or_ne l [] with rfl | hne
    · rfl
    · rw [fields_of_forall hl hne, fields_of_forall hl' hne]
  | hsep a s b ha hs ih =>
    have hparts := List.forall_mem_append.mp h
    have hrest := List.forall_mem_cons.mp hparts.2
    have ha' : ∀ c ∈ a, q c = false := fun c hc => (hparts.1 c hc).symm.trans (ha c hc)
    rw [fields_append_cons ha hs, fields_append_cons ha' (hrest.1 ▸ hs), ih hrest.2]

/-- What has no separator does not stand across one. -/
theorem infix_append_cons (hw : ∀ c ∈ w, p c = false) (hs : p s) (h : w <:+: a ++ s :: b) :
    w <:+: a ∨ w <:+: b := by
  have hno : s ∉ w := fun hmem => by
    rw [hw s hmem] at hs
    exact absurd hs Bool.false_ne_true
  obtain ⟨t, u, h⟩ := h
  rcases List.append_eq_append_iff.mp h with ⟨x, ha, -⟩ | ⟨x, htw, hx⟩
  · exact Or.inl ⟨t, x, ha.symm⟩
  · rcases List.append_eq_append_iff.mp htw with ⟨y, hat, hwy⟩ | ⟨y, hta, hxy⟩
    · cases x with
      | nil =>
        rw [List.append_nil] at hwy
        exact Or.inl ⟨t, [], by rw [List.append_nil, hat, hwy]⟩
      | cons c x =>
        obtain ⟨rfl, -⟩ := List.cons.inj hx
        exact absurd (hwy ▸ List.mem_append_right y List.mem_cons_self) hno
    · rw [hxy] at hx
      cases y with
      | nil =>
        cases w with
        | nil => exact Or.inl (List.nil_infix)
        | cons c w =>
          obtain ⟨rfl, -⟩ := List.cons.inj hx
          exact absurd List.mem_cons_self hno
      | cons c y => exact Or.inr ⟨y, u, (List.cons.inj hx).2.symm⟩

/-- What has no separator and stands in the list stands in one of the pieces. -/
theorem exists_of_infix (hw : ∀ c ∈ w, p c = false) (hne : w ≠ []) (h : w <:+: l) :
    ∃ f ∈ fields p l, w <:+: f := by
  induction l using induct (p := p) with
  | hlast l hl =>
    have hl' : l ≠ [] := fun hnil => hne (List.infix_nil.mp (hnil ▸ h))
    exact ⟨l, by rw [fields_of_forall hl hl', List.mem_singleton], h⟩
  | hsep a s b ha hs ih =>
    rw [fields_append_cons ha hs]
    rcases infix_append_cons hw hs h with hin | hin
    · exact ⟨a, List.mem_cons_self, hin⟩
    · obtain ⟨f, hf, hwf⟩ := ih hin
      exact ⟨f, List.mem_cons_of_mem a hf, hwf⟩

/-- A piece stands in the list. -/
theorem infix_of_mem_fields : ∀ f ∈ fields p l, f <:+: l := by
  induction l using induct (p := p) with
  | hlast l h =>
    intro f hf
    rcases eq_or_ne l [] with rfl | hne
    · exact absurd hf List.not_mem_nil
    · rw [fields_of_forall h hne, List.mem_singleton] at hf
      exact hf ▸ List.infix_rfl
  | hsep a s b ha hs ih =>
    rw [fields_append_cons ha hs]
    refine List.forall_mem_cons.mpr ⟨⟨[], s :: b, rfl⟩, fun f hf => ?_⟩
    exact (ih f hf).trans ((List.infix_cons List.infix_rfl).trans List.infix_append_right)

/-- What stands behind the last separator is the end of the list. -/
theorem rest_suffix : rest p l <:+ l := by
  induction l using induct (p := p) with
  | hlast l h => exact ⟨[], by rw [rest_of_forall h, List.nil_append]⟩
  | hsep a s b ha hs ih =>
    rw [rest_append_cons a b hs]
    exact ih.trans ((List.suffix_cons s b).trans (List.suffix_append a _))

/-- The pieces of a list that is written piece by piece. -/
theorem fields_flatMap {β : Type*} {f : β → List α} (hs : p s) :
    ∀ {bs : List β} {a : List α}, (∀ c ∈ a, p c = false) → a ≠ [] →
      (∀ x ∈ bs, f x ≠ [] ∧ ∀ c ∈ f x, p c = false) →
        fields p (a ++ bs.flatMap fun x => s :: f x) = a :: bs.map f
  | [], a, ha, hne, _ => by
    rw [List.flatMap_nil, List.append_nil, fields_of_forall ha hne, List.map_nil]
  | x :: bs, a, ha, hne, hbs => by
    obtain ⟨⟨hx, hxs⟩, hbs⟩ := List.forall_mem_cons.mp hbs
    rw [List.flatMap_cons, List.cons_append, fields_append_cons ha hs, fields_flatMap hs hxs hx hbs,
      List.map_cons]

end Fields

end PalmaEos
