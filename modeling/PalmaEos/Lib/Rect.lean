import Mathlib.Order.Lattice
import Mathlib.Tactic.Common

/-!
# Half-open rectangles

Rectangles of integer pixels, from `left` and `top` up to but not including `right` and `bottom`.
A rectangle whose edges cross holds no pixel; one that holds a pixel is `Proper`.

## Main results

* `has_inter` — the pixels of an intersection
-/

namespace PalmaEos

/-- A rectangle. -/
structure Rect where
  left : ℤ
  top : ℤ
  right : ℤ
  bottom : ℤ
  deriving DecidableEq

namespace Rect

variable {a b : Rect} {x y : ℤ}

/-- Pixel `(x, y)` lies in the rectangle. -/
def Has (r : Rect) (x y : ℤ) : Prop := r.left ≤ x ∧ x < r.right ∧ r.top ≤ y ∧ y < r.bottom

instance (r : Rect) (x y : ℤ) : Decidable (r.Has x y) := inferInstanceAs (Decidable (_ ∧ _))

/-- The rectangle has a positive width and height. -/
def Proper (r : Rect) : Prop := r.left < r.right ∧ r.top < r.bottom

instance (r : Rect) : Decidable r.Proper := inferInstanceAs (Decidable (_ ∧ _))

/-- No edge of `a` is outside `b`. -/
def Within (a b : Rect) : Prop :=
  b.left ≤ a.left ∧ b.top ≤ a.top ∧ a.right ≤ b.right ∧ a.bottom ≤ b.bottom

instance (a b : Rect) : Decidable (a.Within b) := inferInstanceAs (Decidable (_ ∧ _))

/-- The intersection, edge by edge. -/
def inter (a b : Rect) : Rect :=
  ⟨max a.left b.left, max a.top b.top, min a.right b.right, min a.bottom b.bottom⟩

theorem has_inter : (a.inter b).Has x y ↔ a.Has x y ∧ b.Has x y := by
  simp only [Has, inter]
  omega

theorem inter_within_right (a b : Rect) : (a.inter b).Within b :=
  ⟨le_max_right _ _, le_max_right _ _, min_le_right _ _, min_le_right _ _⟩

end Rect

end PalmaEos
