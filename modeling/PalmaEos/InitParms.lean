import Mathlib.Algebra.Group.Nat.Defs
import Mathlib.Data.Fin.VecNotation
import PalmaEos.DamagePage

/-!
# The update parameters

`init_parms` turns a damage snapshot into the update entries that the kernel reads: it chooses the
waveform, decides between a full update and the rectangles of the snapshot, and clamps every
rectangle to the panel.

The four words of an entry's rectangle are written as left, top, right and bottom (`Upd.ltrb`). The
kernel reads them as x, y, width and height (`Upd.RespectsAbi`). The two readings agree on the whole
panel, and otherwise the second is a rectangle of the panel only when the first is not too far to
the right or down.

## Main results

* `clampRect_spec` — clamping
* `initParms_valid` — the entries, read as they are written, are rectangles of the panel
* `initParms_covers` — they lose nothing that the snapshot asks for
-/

namespace PalmaEos

/-- The live tunables, `t_*`. -/
structure Tunables where
  enable : ℤ
  wf : ℤ
  upd : ℤ
  flag : ℤ
  interval : ℤ
  fastwf : ℤ
  fastms : ℤ
  fullevery : ℤ
  skipsame : ℤ
  settlems : ℤ
  settlewf : ℤ
  deriving DecidableEq

/-- What the tunables are before they are first read. -/
def Tunables.init : Tunables where
  enable := 1
  wf := 2
  upd := 1
  flag := 0x21000
  interval := 0
  fastwf := 0
  fastms := 250
  fullevery := 0
  skipsame := 1
  settlems := 0
  settlewf := 2

/-- `struct upd`, the same as `struct ebc_upd`. -/
structure Upd where
  rect : Fin 4 → ℤ
  waveformMode : ℤ
  updateMode : ℤ
  updateMarker : ℤ
  temp : ℤ
  flag : ℤ
  reserved : ℤ

/-- `g_parms` before anything is submitted. -/
def zeroParms : Fin 8 → Upd := fun _ => ⟨fun _ => 0, 0, 0, 0, 0, 0, 0⟩

/-- The rectangle of an entry, as the shim writes it. -/
def Upd.ltrb (u : Upd) : Rect := ⟨u.rect 0, u.rect 1, u.rect 2, u.rect 3⟩

/-- The entry is a rectangle of the panel when its words are x, y, width and height, the way the
kernel reads them. -/
def Upd.RespectsAbi (u : Upd) : Prop :=
  0 ≤ u.rect 0 ∧ 0 ≤ u.rect 1 ∧ 0 < u.rect 2 ∧ 0 < u.rect 3 ∧
    u.rect 0 + u.rect 2 ≤ 1648 ∧ u.rect 1 + u.rect 3 ≤ 824

instance (u : Upd) : Decidable u.RespectsAbi := inferInstanceAs (Decidable (_ ∧ _))

/-- The marker that the entries of an update take. -/
def commonMarker (parms : Fin 8 → Upd) : ℤ := (parms 0).updateMarker

/-- A 32-bit signed integer after an addition that may wrap. -/
def wrap32 (n : ℤ) : ℤ := n.bmod (2 ^ 32)

/-- `g_parms[0].update_marker++` -/
def advanceMarker (parms : Fin 8 → Upd) : Fin 8 → Upd :=
  Function.update parms 0
    { parms 0 with updateMarker := wrap32 ((parms 0).updateMarker + 1) }

/-! ### Clamping -/

/-- The clamping of one rectangle. -/
def clampRect (d : Rect) : Rect :=
  let l := if d.left < 0 then 0 else d.left
  let t := if d.top < 0 then 0 else d.top
  let r := if d.right > PANEL_W then PANEL_W else d.right
  let b := if d.bottom > PANEL_H then PANEL_H else d.bottom
  if r ≤ l ∨ b ≤ t then panel else ⟨l, t, r, b⟩

/-- **Clamping** is intersecting with the panel, and then the whole panel when nothing is left. -/
theorem clampRect_spec (d : Rect) :
    clampRect d = if (d.inter panel).Proper then d.inter panel else panel := by
  have hl : (if d.left < 0 then 0 else d.left) = max d.left 0 := by omega
  have ht : (if d.top < 0 then 0 else d.top) = max d.top 0 := by omega
  have hr : (if d.right > PANEL_W then PANEL_W else d.right) = min d.right PANEL_W := by omega
  have hb : (if d.bottom > PANEL_H then PANEL_H else d.bottom) = min d.bottom PANEL_H := by omega
  rw [clampRect, hl, ht, hr, hb]
  change (if min d.right PANEL_W ≤ max d.left 0 ∨ min d.bottom PANEL_H ≤ max d.top 0 then panel
    else d.inter panel) = _
  have hproper : (d.inter panel).Proper ↔
      ¬ (min d.right PANEL_W ≤ max d.left 0 ∨ min d.bottom PANEL_H ≤ max d.top 0) := by
    rw [not_or, not_le, not_le]
    exact Iff.rfl
  by_cases h : (d.inter panel).Proper
  · rw [if_neg (hproper.mp h), if_pos h]
  · rw [if_pos (not_not.mp fun hn => h (hproper.mpr hn)), if_neg h]

theorem clampRect_valid (d : Rect) : (clampRect d).Proper ∧ (clampRect d).Within panel := by
  rw [clampRect_spec]
  split_ifs with h
  · exact ⟨h, Rect.inter_within_right d panel⟩
  · exact ⟨by decide, by decide⟩

theorem has_clampRect {d : Rect} {x y : ℤ} (h : d.Has x y) (hp : panel.Has x y) :
    (clampRect d).Has x y := by
  rw [clampRect_spec]
  split_ifs
  · exact Rect.has_inter.mpr ⟨h, hp⟩
  · exact hp

/-! ### `init_parms` -/

/-- The `fullevery` counter forces a full update. -/
def FullDue (t : Tunables) (updatesSinceFull : ℤ) : Prop :=
  0 < t.fullevery ∧ t.fullevery ≤ updatesSinceFull + 1

instance (t : Tunables) (updatesSinceFull : ℤ) : Decidable (FullDue t updatesSinceFull) :=
  inferInstanceAs (Decidable (_ ∧ _))

/-- The waveform chosen for an update `dt` after the one before. -/
def chooseWf (t : Tunables) (updatesSinceFull dt : ℤ) : ℤ :=
  if FullDue t updatesSinceFull then t.wf
  else if 0 < t.fastwf ∧ 0 ≤ dt ∧ dt < t.fastms then t.fastwf
  else t.wf

/-- `updates_since_full` after the update. -/
def countUpdate (t : Tunables) (updatesSinceFull : ℤ) : ℤ :=
  if FullDue t updatesSinceFull then 0
  else if 0 < t.fullevery then updatesSinceFull + 1
  else updatesSinceFull

/-- The update covers the whole panel, whatever the rectangles. -/
def FullUpdate (t : Tunables) (updatesSinceFull nDmg : ℤ) (forceFull : Bool) : Prop :=
  FullDue t updatesSinceFull ∨ forceFull ∨ nDmg ≤ 0

instance (t : Tunables) (updatesSinceFull nDmg : ℤ) (forceFull : Bool) :
    Decidable (FullUpdate t updatesSinceFull nDmg forceFull) :=
  inferInstanceAs (Decidable (_ ∨ _))

/-- How many rectangles of the snapshot are used; none for a full update. -/
def usedRects (t : Tunables) (updatesSinceFull nDmg : ℤ) (forceFull : Bool) : ℤ :=
  let n := if FullUpdate t updatesSinceFull nDmg forceFull then 0 else nDmg
  if n > EPDC_DAMAGE_MAX then EPDC_DAMAGE_MAX else n

/-- What `init_parms` writes and returns. -/
structure InitResult where
  parms : Fin 8 → Upd
  updatesSinceFull : ℤ
  n : ℤ

/-- `init_parms`, on the entries `parms` of the update before. -/
def initParms (t : Tunables) (updatesSinceFull : ℤ) (parms : Fin 8 → Upd) (dt : ℤ)
    (dmg : Fin 8 → Rect) (nDmg : ℤ) (forceFull : Bool) : InitResult :=
  let n := usedRects t updatesSinceFull nDmg forceFull
  let count := if n ≠ 0 then n else 1
  let entry (i : Fin 8) : Upd :=
    let r := if n ≠ 0 then clampRect (dmg i) else panel
    { rect := ![r.left, r.top, r.right, r.bottom]
      waveformMode := chooseWf t updatesSinceFull dt
      updateMode := if FullDue t updatesSinceFull then 1 else t.upd
      updateMarker := (parms 0).updateMarker
      temp := 0
      flag := t.flag
      reserved := 0 }
  { parms := fun i => if i.val < count then entry i else parms i
    updatesSinceFull := countUpdate t updatesSinceFull
    n := count }

section InitParms

variable (t : Tunables) (usf : ℤ) (parms : Fin 8 → Upd) (dt : ℤ) (dmg : Fin 8 → Rect) (nDmg : ℤ)
  (forceFull : Bool)

theorem usedRects_of_full {t : Tunables} {usf nDmg : ℤ} {forceFull : Bool}
    (h : FullUpdate t usf nDmg forceFull) : usedRects t usf nDmg forceFull = 0 := by
  rw [usedRects, if_pos h]
  exact if_neg (by omega)

theorem usedRects_of_not_full {t : Tunables} {usf nDmg : ℤ} {forceFull : Bool}
    (h : ¬ FullUpdate t usf nDmg forceFull) :
    usedRects t usf nDmg forceFull = min nDmg 8 ∧ 0 < nDmg := by
  have hpos : 0 < nDmg := not_le.mp fun hle => h (Or.inr (Or.inr hle))
  rw [usedRects, if_neg h, EPDC_DAMAGE_MAX]
  refine ⟨?_, hpos⟩
  push_cast
  omega

/-- **The number of entries** is between one and eight. -/
theorem initParms_n : 1 ≤ (initParms t usf parms dt dmg nDmg forceFull).n ∧
    (initParms t usf parms dt dmg nDmg forceFull).n ≤ 8 := by
  rw [initParms]
  dsimp only
  by_cases h : FullUpdate t usf nDmg forceFull
  · rw [usedRects_of_full h]
    decide
  · obtain ⟨hused, hpos⟩ := usedRects_of_not_full h
    rw [hused, if_pos (by omega)]
    omega

/-- **The entries**, as they are written. -/
theorem ltrb_initParms {i : Fin 8} (hi : i.val < (initParms t usf parms dt dmg nDmg forceFull).n) :
    ((initParms t usf parms dt dmg nDmg forceFull).parms i).ltrb
        = (if usedRects t usf nDmg forceFull ≠ 0 then clampRect (dmg i) else panel) ∧
      ((initParms t usf parms dt dmg nDmg forceFull).parms i).updateMarker
        = (parms 0).updateMarker := by
  rw [initParms] at hi ⊢
  dsimp only at hi ⊢
  rw [if_pos hi]
  exact ⟨rfl, rfl⟩

/-- **What the entries ask for** is the same in all of them. -/
theorem modes_initParms {i : Fin 8}
    (hi : i.val < (initParms t usf parms dt dmg nDmg forceFull).n) :
    ((initParms t usf parms dt dmg nDmg forceFull).parms i).waveformMode = chooseWf t usf dt ∧
      ((initParms t usf parms dt dmg nDmg forceFull).parms i).updateMode
        = (if FullDue t usf then 1 else t.upd) ∧
      ((initParms t usf parms dt dmg nDmg forceFull).parms i).flag = t.flag := by
  rw [initParms] at hi ⊢
  dsimp only at hi ⊢
  rw [if_pos hi]
  exact ⟨rfl, rfl, rfl⟩

/-- **The entries are rectangles of the panel**, read as they are written. -/
theorem initParms_valid {i : Fin 8} (hi : i.val < (initParms t usf parms dt dmg nDmg forceFull).n) :
    ((initParms t usf parms dt dmg nDmg forceFull).parms i).ltrb.Proper ∧
      ((initParms t usf parms dt dmg nDmg forceFull).parms i).ltrb.Within panel := by
  rw [(ltrb_initParms t usf parms dt dmg nDmg forceFull hi).1]
  split_ifs
  · exact clampRect_valid _
  · exact ⟨by decide, by decide⟩

/-- **Nothing that the snapshot asks for is lost**: of every pixel of the panel that it covers,
some entry knows. -/
theorem initParms_covers {snap : Snapshot} (hn : snap.n ≤ EPDC_DAMAGE_MAX) {x y : ℤ}
    (hxy : snap.Covers x y) (hp : panel.Has x y) :
    ∃ i : Fin 8, i.val < (initParms t usf parms dt snap.rect snap.n (snap.full ≠ 0)).n ∧
      ((initParms t usf parms dt snap.rect snap.n (snap.full ≠ 0)).parms i).ltrb.Has x y := by
  have hpos := initParms_n t usf parms dt snap.rect snap.n (snap.full ≠ 0)
  by_cases h : FullUpdate t usf snap.n (snap.full ≠ 0)
  · refine ⟨0, by simp only [Fin.val_zero]; omega, ?_⟩
    rw [(ltrb_initParms t usf parms dt snap.rect snap.n _ (by simp only [Fin.val_zero]; omega)).1,
      usedRects_of_full h]
    exact hp
  · obtain ⟨hused, hnpos⟩ := usedRects_of_not_full h
    have hcount : (initParms t usf parms dt snap.rect snap.n (snap.full ≠ 0)).n = snap.n := by
      rw [EPDC_DAMAGE_MAX] at hn
      rw [initParms]
      dsimp only
      rw [hused, if_pos (by omega)]
      omega
    rcases hxy with hfull | hzero | ⟨i, hi, hhas⟩
    · exact absurd (Or.inr (Or.inl (decide_eq_true hfull))) h
    · omega
    · have hi' : (i.val : ℤ) < (initParms t usf parms dt snap.rect snap.n (snap.full ≠ 0)).n := by
        omega
      refine ⟨i, hi', ?_⟩
      rw [(ltrb_initParms t usf parms dt snap.rect snap.n _ hi').1, if_pos (by omega)]
      exact has_clampRect hhas hp

end InitParms

end PalmaEos
