import Mathlib.Data.List.Induction
import PalmaEos.Lib.Shell

/-!
# Rules for scripts

What can be said of a script in every world: what has gone well where it finishes, what it can end
with, what it keeps, and what has happened before it runs a command.

## Main results

* `Script.bind_finished`, `Script.plain_finished`, `Script.orExit_finished` — a run that finishes,
  taken apart
* `Script.run_keeps` — an invariant that the commands of a script keep
* `Script.exited_of_exits` — what a script can end with
* `Script.run_since` — a run inside of another one
* `Guarded` — what has happened before every command of a kind
-/

namespace PalmaEos

universe u

variable {γ δ : Type*} {α β : Type u} {w : World γ} {h h' : History γ}

/-! ### Histories -/

/-- The world from a moment on. -/
def World.since (w : World γ) (h₀ : History γ) : World γ := fun h c => w (h₀ ++ h) c

/-- The replies are those of the world. -/
def Answered (w : World γ) (h : History γ) : Prop :=
  ∀ pre c r post, h = pre ++ (c, r) :: post → r = w pre c

/-- Every command had what it needs behind it when it was run. -/
def Guarded (need : γ → History γ → Prop) (h : History γ) : Prop :=
  ∀ pre c r post, h = pre ++ (c, r) :: post → need c pre

theorem split_concat {α : Type*} {l pre post : List α} {o o' : α} :
    l ++ [o'] = pre ++ o :: post ↔
      (post = [] ∧ l = pre ∧ o' = o) ∨ ∃ post', post = post' ++ [o'] ∧ l = pre ++ o :: post' := by
  cases post using List.reverseRecOn with
  | nil =>
    rw [List.append_singleton_inj]
    constructor
    · rintro ⟨rfl, rfl⟩
      exact Or.inl ⟨rfl, rfl, rfl⟩
    · rintro (⟨-, rfl, rfl⟩ | ⟨post', hpost, -⟩)
      · exact ⟨rfl, rfl⟩
      · exact absurd hpost (by simp)
  | append_singleton post o'' =>
    rw [← List.cons_append, ← List.append_assoc, List.append_singleton_inj]
    constructor
    · rintro ⟨rfl, rfl⟩
      exact Or.inr ⟨post, rfl, rfl⟩
    · rintro (⟨hpost, -⟩ | ⟨post', hpost, rfl⟩)
      · exact absurd hpost (by simp)
      · obtain ⟨rfl, rfl⟩ := List.append_singleton_inj.mp hpost
        exact ⟨rfl, rfl⟩

theorem mem_after {c : γ} : (c, w h c) ∈ h.after w c :=
  List.mem_append_right h (List.mem_singleton_self _)

theorem mem_after_of_mem {c : γ} {o : γ × Reply} (ho : o ∈ h) : o ∈ h.after w c :=
  List.mem_append_left _ ho

theorem answered_nil : Answered w [] := by
  intro pre c r post hsplit
  exact absurd hsplit (by simp)

theorem Answered.after (hall : Answered w h) (c : γ) : Answered w (h.after w c) := by
  intro pre c' r post hsplit
  rcases split_concat.mp hsplit with ⟨-, rfl, ho⟩ | ⟨post', -, hsplit⟩
  · obtain ⟨rfl, rfl⟩ := Prod.mk.inj ho
    rfl
  · exact hall pre c' r post' hsplit

/-- **One more command**: it has what it needs. -/
theorem Guarded.after {need : γ → History γ → Prop} (hall : Guarded need h) {c : γ}
    (hc : need c h) : Guarded need (h.after w c) := by
  intro pre c' r post hsplit
  rcases split_concat.mp hsplit with ⟨-, rfl, ho⟩ | ⟨post', -, hsplit⟩
  · obtain ⟨rfl, -⟩ := Prod.mk.inj ho
    exact hc
  · exact hall pre c' r post' hsplit

/-- What is needed in a history, and in what comes after it. -/
theorem Guarded.append {need : γ → History γ → Prop} (hall : Guarded need h)
    (hnew : ∀ pre c r post, h' = pre ++ (c, r) :: post → need c (h ++ pre)) :
    Guarded need (h ++ h') := by
  intro pre c r post hsplit
  rcases List.append_eq_append_iff.mp hsplit with ⟨t, rfl, ht⟩ | ⟨t, rfl, ht⟩
  · exact hnew t c r post ht
  · cases t with
    | nil =>
      have hfirst := hnew [] c r post ht.symm
      rwa [List.append_nil, List.append_nil] at hfirst
    | cons o t =>
      obtain ⟨rfl, -⟩ := List.cons.inj ht
      exact hall pre c r t rfl

namespace Script

/-- `c`, where the script looks at the status itself. -/
def ask (c : γ) : Script γ Reply := call c ret

theorem bind_assoc {χ : Type u} (s : Script γ α) (k : α → Script γ β) (k' : β → Script γ χ) :
    (s >>= k) >>= k' = s >>= fun a => k a >>= k' := by
  show (s.bind k).bind k' = s.bind fun a => (k a).bind k'
  induction s with
  | ret a => rfl
  | exit status => rfl
  | call c next ih =>
    show call c _ = call c _
    congr 1
    funext r
    exact ih r

/-- A plain command is run, whether it goes well or not. -/
theorem plain_history (c : γ) : ((plain c).run w h).2 = h.after w c := by
  rw [run_plain]
  split_ifs
  · rfl
  · rfl

/-! ### Runs that finish -/

theorem bind_finished {p : Script γ α} {k : α → Script γ β} {b : β} :
    (p >>= k).run w h = (.finished b, h') ↔
      ∃ a h₁, p.run w h = (.finished a, h₁) ∧ (k a).run w h₁ = (.finished b, h') := by
  rw [run_bind]
  rcases p.run w h with ⟨a | status, h₁⟩
  · constructor
    · intro hk
      exact ⟨a, h₁, rfl, hk⟩
    · rintro ⟨a', h₁', heq, hk⟩
      obtain ⟨ha, rfl⟩ := Prod.mk.inj heq
      rwa [Ending.finished.inj ha]
  · refine iff_of_false (fun heq => ?_) ?_
    · exact absurd (Prod.mk.inj heq).1 (by simp)
    · rintro ⟨a, h₁', heq, -⟩
      exact absurd (Prod.mk.inj heq).1 (by simp)

theorem ret_finished {a b : α} :
    (pure a : Script γ α).run w h = (.finished b, h') ↔ a = b ∧ h = h' :=
  ⟨fun heq => ⟨Ending.finished.inj (Prod.mk.inj heq).1, (Prod.mk.inj heq).2⟩,
    fun ⟨ha, hh⟩ => ha ▸ hh ▸ rfl⟩

theorem exit_finished {status : ℕ} {b : α} :
    (exit status : Script γ α).run w h ≠ (.finished b, h') := by
  intro heq
  exact absurd (Prod.mk.inj heq).1 (by simp)

theorem plain_finished {c : γ} {r : Reply} : (plain c).run w h = (.finished r, h') ↔
    r = w h c ∧ (w h c).status = 0 ∧ h' = h.after w c := by
  rw [run_plain]
  split_ifs with hzero
  · rw [Prod.mk.injEq, Ending.finished.injEq, and_iff_right hzero, eq_comm,
      eq_comm (a := h.after w c)]
  · refine iff_of_false (fun heq => ?_) fun hall => hzero hall.2.1
    exact absurd (Prod.mk.inj heq).1 (by simp)

theorem ask_finished {c : γ} {r : Reply} :
    (ask c).run w h = (.finished r, h') ↔ r = w h c ∧ h' = h.after w c := by
  rw [ask, run, run, Prod.mk.injEq, Ending.finished.injEq, eq_comm, eq_comm (a := h.after w c)]

/-- `c || exit status` -/
theorem orExit_finished {c : γ} {status : ℕ} {u : Unit} :
    (orElse c (exit status)).run w h = (.finished u, h') ↔
      (w h c).status = 0 ∧ h' = h.after w c := by
  rw [run_orElse]
  split_ifs with hzero
  · rw [Prod.mk.injEq, and_iff_right rfl, and_iff_right hzero, eq_comm]
  · exact iff_of_false exit_finished fun hall => hzero hall.1

/-- A check of the script itself. -/
theorem guard_finished {p : Prop} [Decidable p] {status : ℕ} {s : Script γ α} {b : α} :
    (if p then s else exit status).run w h = (.finished b, h') ↔
      p ∧ s.run w h = (.finished b, h') := by
  split_ifs with hp
  · exact (and_iff_right hp).symm
  · exact iff_of_false exit_finished fun hall => hp hall.1

/-! ### What a script can do -/

/-- Every command that the script can run is of the kind. -/
def Calls (p : γ → Prop) : Script γ α → Prop
  | ret _ => True
  | exit _ => True
  | call c next => p c ∧ ∀ r, (next r).Calls p

/-- Every status that the script can exit with is of the kind. -/
def Exits (q : ℕ → Prop) : Script γ α → Prop
  | ret _ => True
  | exit status => q status
  | call _ next => ∀ r, (next r).Exits q

section Calls

variable {p : γ → Prop} {q : ℕ → Prop} {s : Script γ α} {k : α → Script γ β} {c : γ}

@[simp] theorem calls_pure (a : α) : (pure a : Script γ α).Calls p := trivial

@[simp] theorem calls_exit (status : ℕ) : (exit status : Script γ α).Calls p := trivial

theorem Calls.mono {p' : γ → Prop} (hs : s.Calls p) (himp : ∀ c, p c → p' c) : s.Calls p' := by
  induction s with
  | ret a => trivial
  | exit status => trivial
  | call c next ih => exact ⟨himp c hs.1, fun r => ih r (hs.2 r)⟩

theorem calls_bind (hs : s.Calls p) (hk : ∀ a, (k a).Calls p) : (s >>= k).Calls p := by
  change (s.bind k).Calls p
  induction s with
  | ret a => exact hk a
  | exit status => trivial
  | call c next ih => exact ⟨hs.1, fun r => ih r (hs.2 r)⟩

theorem calls_ask (hc : p c) : (ask c).Calls p := ⟨hc, fun _ => trivial⟩

theorem calls_plain (hc : p c) : (plain c).Calls p := by
  refine ⟨hc, fun r => ?_⟩
  show (if r.status = 0 then ret r else exit r.status : Script γ Reply).Calls p
  split_ifs
  · trivial
  · trivial

theorem calls_orElse {s : Script γ Unit} (hc : p c) (hs : s.Calls p) : (orElse c s).Calls p := by
  refine ⟨hc, fun r => ?_⟩
  show (if r.status = 0 then ret () else s : Script γ Unit).Calls p
  split_ifs
  · trivial
  · exact hs

theorem calls_ite {b : Prop} [Decidable b] {s' : Script γ α} (hs : s.Calls p) (hs' : s'.Calls p) :
    (if b then s else s').Calls p := by
  split_ifs
  · exact hs
  · exact hs'

/-- **An invariant** that the commands of a script keep. -/
theorem run_keeps {Inv : History γ → Prop} (hs : s.Calls p)
    (hkeep : ∀ h c, p c → Inv h → Inv (h.after w c)) (hinv : Inv h) : Inv (s.run w h).2 := by
  induction s generalizing h with
  | ret a => exact hinv
  | exit status => exact hinv
  | call c next ih => exact ih (w h c) (hs.2 _) (hkeep h c hs.1 hinv)

theorem keeps_of_run {Inv : History γ → Prop} {e : Ending α} (hs : s.Calls p)
    (hkeep : ∀ h c, p c → Inv h → Inv (h.after w c)) (hinv : Inv h) (hrun : s.run w h = (e, h')) :
    Inv h' := by
  have hkept := run_keeps hs hkeep hinv
  rwa [hrun] at hkept

/-- An invariant of a sequence, from one of its first part and one of its second where that is
reached. -/
theorem run_bind_keeps {Inv : History γ → Prop} (hs : Inv (s.run w h).2)
    (hk : ∀ a h₁, s.run w h = (.finished a, h₁) → Inv ((k a).run w h₁).2) :
    Inv ((s >>= k).run w h).2 := by
  rw [run_bind]
  rcases hrun : s.run w h with ⟨a | status, h₁⟩
  · exact hk a h₁ hrun
  · rw [hrun] at hs
    exact hs

theorem calls_trivial (s : Script γ α) : s.Calls fun _ => True := by
  induction s with
  | ret a => trivial
  | exit status => trivial
  | call c next ih => exact ⟨trivial, ih⟩

theorem run_prefix (s : Script γ α) : h <+: (s.run w h).2 :=
  run_keeps (calls_trivial s) (fun h' _ _ hpre => hpre.trans (List.prefix_append h' _))
    (List.prefix_refl h)

theorem run_answered (s : Script γ α) (hall : Answered w h) : Answered w (s.run w h).2 :=
  run_keeps (calls_trivial s) (fun _ c _ hall => hall.after c) hall

theorem answered_of_run {e : Ending α} (hall : Answered w h) (hrun : s.run w h = (e, h')) :
    Answered w h' := by
  have hkept := run_answered s hall
  rwa [hrun] at hkept

theorem exits_bind (hs : s.Exits q) (hk : ∀ a, (k a).Exits q) : (s >>= k).Exits q := by
  change (s.bind k).Exits q
  induction s with
  | ret a => exact hk a
  | exit status => exact hs
  | call c next ih => exact fun r => ih r (hs r)

theorem exits_ask (c : γ) : (ask c).Exits q := fun _ => trivial

theorem exits_plain (c : γ) : (plain c).Exits (· ≠ 0) := by
  intro r
  show (if r.status = 0 then ret r else exit r.status : Script γ Reply).Exits (· ≠ 0)
  split_ifs with hzero
  · trivial
  · exact hzero

theorem exits_orElse {s : Script γ Unit} (hs : s.Exits q) : (orElse c s).Exits q := by
  intro r
  show (if r.status = 0 then ret () else s : Script γ Unit).Exits q
  split_ifs
  · trivial
  · exact hs

theorem exits_ite {b : Prop} [Decidable b] {s' : Script γ α} (hs : s.Exits q) (hs' : s'.Exits q) :
    (if b then s else s').Exits q := by
  split_ifs
  · exact hs
  · exact hs'

@[simp] theorem exits_pure (a : α) : (pure a : Script γ α).Exits q := trivial

/-- **What a script can end with.** -/
theorem exited_of_exits {status : ℕ} (hs : s.Exits q) (hrun : (s.run w h).1 = .exited status) :
    q status := by
  induction s generalizing h with
  | ret a => exact absurd hrun (by simp [run])
  | exit status' =>
    obtain rfl := Ending.exited.inj hrun
    exact hs
  | call c next ih => exact ih (w h c) (hs _) hrun

end Calls

/-! ### Runs inside of others -/

/-- A script that starts after other things have happened. -/
theorem run_since (h₀ : History γ) (s : Script γ α) :
    s.run w (h₀ ++ h) = ((s.run (w.since h₀) h).1, h₀ ++ (s.run (w.since h₀) h).2) := by
  induction s generalizing h with
  | ret a => rfl
  | exit status => rfl
  | call c next ih =>
    have hafter : History.after w (h₀ ++ h) c = h₀ ++ h.after (w.since h₀) c := List.append_assoc ..
    rw [run, hafter, ih]
    rfl

/-- The script with its commands given through `f`. -/
def mapCalls (f : γ → δ) : Script γ α → Script δ α
  | ret a => ret a
  | exit status => exit status
  | call c next => call (f c) fun r => (next r).mapCalls f

section MapCalls

variable {f : γ → δ}

theorem mapCalls_bind (s : Script γ α) (k : α → Script γ β) :
    (s >>= k).mapCalls f = s.mapCalls f >>= fun a => (k a).mapCalls f := by
  show (s.bind k).mapCalls f = (s.mapCalls f).bind fun a => (k a).mapCalls f
  induction s with
  | ret a => rfl
  | exit status => rfl
  | call c next ih =>
    show call (f c) _ = call (f c) _
    congr 1
    funext r
    exact ih r

theorem mapCalls_plain (c : γ) : (plain c).mapCalls f = plain (f c) := by
  rw [plain, plain, mapCalls]
  congr 1
  funext r
  split_ifs
  · rfl
  · rfl

theorem mapCalls_orElse (c : γ) (s : Script γ Unit) :
    (orElse c s).mapCalls f = orElse (f c) (s.mapCalls f) := by
  rw [orElse, orElse, mapCalls]
  congr 1
  funext r
  split_ifs
  · rfl
  · rfl

theorem calls_mapCalls {p : δ → Prop} {s : Script γ α} (hs : s.Calls fun c => p (f c)) :
    (s.mapCalls f).Calls p := by
  induction s with
  | ret a => trivial
  | exit status => trivial
  | call c next ih => exact ⟨hs.1, fun r => ih r (hs.2 r)⟩

theorem exits_mapCalls {q : ℕ → Prop} {s : Script γ α} (hs : s.Exits q) :
    (s.mapCalls f).Exits q := by
  induction s with
  | ret a => trivial
  | exit status => exact hs
  | call c next ih => exact fun r => ih r (hs r)

end MapCalls

end Script

end PalmaEos
