import IntervalProgramming.Box.Basic

/-!
# Reading the model of a box

The value of a box at an index tuple is its intercept plus slope times index over the extents.  Over a
whole box each term is largest at one end of its extent, so the extremes of a linear model are found
extent by extent.  A constant model has its intercept everywhere.

Terms are added from the left, starting from the intercept, and the shortest of the lists involved
decides how many there are.
-/

namespace IntervalProgramming.Box

variable {α : Type} [Scalar α]

/-- The value of the linear model at an index tuple, inside the box or not. -/
def eval (b : Box α) (tuple : List Nat) : α :=
  (b.slopes.zip tuple).foldl (fun acc (s, j) => acc + s * (j : α)) b.intercept

/-- The largest value of the linear model over the box. -/
def maxVal (b : Box α) : α :=
  (b.extents.zip b.slopes).foldl
    (fun acc (e, s) => acc + Scalar.max (s * (e.lo : α)) (s * (e.hi : α))) b.intercept

/-- The smallest value of the linear model over the box. -/
def minVal (b : Box α) : α :=
  (b.extents.zip b.slopes).foldl
    (fun acc (e, s) => acc + Scalar.min (s * (e.lo : α)) (s * (e.hi : α))) b.intercept

/-- Where the linear model is largest: the high end under a positive slope, the low end otherwise. -/
def maxPoint (b : Box α) : List Nat :=
  (b.extents.zip b.slopes).map fun (e, s) => if ((0 : Nat) : α) < s then e.hi else e.lo

/-- The first index of each extent. -/
def lows (b : Box α) : List Nat :=
  b.extents.map (·.lo)

/-- The value at an index tuple in the given reading of the model. -/
def evalAs (b : Box α) (tuple : List Nat) : Degree → α
  | .constant => b.intercept
  | .linear => b.eval tuple

/-- The largest value over the box in the given reading of the model. -/
def maxValAs (b : Box α) : Degree → α
  | .constant => b.intercept
  | .linear => b.maxVal

/-- The smallest value over the box in the given reading of the model. -/
def minValAs (b : Box α) : Degree → α
  | .constant => b.intercept
  | .linear => b.minVal

/-- Where the model is largest in the given reading; a constant model is largest from the start. -/
def maxPointAs (b : Box α) : Degree → List Nat
  | .constant => b.lows
  | .linear => b.maxPoint

/-- The box whose linear model says what the given reading of `b` says: a constant model becomes a
linear one with zero slopes. -/
def asLinear (b : Box α) : Degree → Box α
  | .constant => { b with slopes := b.slopes.map fun _ => ((0 : Nat) : α) }
  | .linear => b

/-- Multiply the model by a factor. -/
def scale (b : Box α) (w : α) : Box α :=
  { b with slopes := b.slopes.map (· * w), intercept := b.intercept * w }

/-- Move the model's values by the map that sends `origin` to `target` and stretches by `factor`. -/
def stretch (b : Box α) (origin factor target : α) : Box α :=
  { b with
    slopes := b.slopes.map (· * factor)
    intercept := (b.intercept - origin) * factor + target }

/-- Make the model the same value everywhere, with as many slopes as before. -/
def level (b : Box α) (value : α) : Box α :=
  { b with slopes := b.slopes.map fun _ => ((0 : Nat) : α), intercept := value }

end IntervalProgramming.Box
