import IntervalProgramming.Domain.Basic

/-!
# Boxes

A box is a product of closed index intervals, one for each of some dimensions of a domain, together
with a linear model: an intercept and one slope for each extent.  A model is read at index tuples, not
at the continuous values behind them.

An interval carries the proof that it is not inverted, so no box is empty.  The number of slopes is
left open, because a model may be replaced from outside; what the shorter or longer slope list means
is said where the model is read.
-/

namespace IntervalProgramming

variable {α : Type} [Scalar α]

/-- How the model of a box is read: a constant model ignores the slopes. -/
inductive Degree where
  | constant
  | linear
  deriving DecidableEq, Repr

/-- The indices from `lo` to `hi`, both included. -/
structure Interval where
  lo : Nat
  hi : Nat
  le : lo ≤ hi := by omega
  deriving DecidableEq, Repr

namespace Interval

/-- The interval of a single index. -/
def point (j : Nat) : Interval :=
  { lo := j, hi := j }

/-- The number of steps from the first index to the last. -/
def span (i : Interval) : Nat :=
  i.hi - i.lo

/-- Whether the interval is a single index. -/
def isPoint (i : Interval) : Bool :=
  i.lo == i.hi

/-- Whether an index lies in the interval. -/
def contains (i : Interval) (j : Nat) : Bool :=
  decide (i.lo ≤ j) && decide (j ≤ i.hi)

/-- Whether two intervals share an index. -/
def overlaps (i k : Interval) : Bool :=
  decide (i.lo ≤ k.hi) && decide (k.lo ≤ i.hi)

/-- Whether every index of `i` lies in `k`. -/
def isWithin (i k : Interval) : Bool :=
  decide (k.lo ≤ i.lo) && decide (i.hi ≤ k.hi)

/-- The indices two intervals share, if there are any. -/
def meet? (i k : Interval) : Option Interval :=
  if h : max i.lo k.lo ≤ min i.hi k.hi then some ⟨max i.lo k.lo, min i.hi k.hi, h⟩ else none

theorem contains_eq_true_iff {i : Interval} {j : Nat} :
    i.contains j = true ↔ i.lo ≤ j ∧ j ≤ i.hi := by
  simp [contains]

theorem overlaps_eq_true_iff {i k : Interval} :
    i.overlaps k = true ↔ i.lo ≤ k.hi ∧ k.lo ≤ i.hi := by
  simp [overlaps]

theorem isWithin_eq_true_iff {i k : Interval} :
    i.isWithin k = true ↔ k.lo ≤ i.lo ∧ i.hi ≤ k.hi := by
  simp [isWithin]

end Interval

/-- An interval along one dimension of a domain. -/
structure Extent extends Interval where
  dim : Nat
  deriving DecidableEq, Repr

namespace Extent

/-- The extent of dimension `dim` from `lo` to `hi`, unless these are inverted. -/
def of? (dim lo hi : Nat) : Option Extent :=
  if h : lo ≤ hi then some { lo := lo, hi := hi, le := h, dim := dim } else none

/-- The extent of a single index. -/
def point (dim j : Nat) : Extent :=
  { Interval.point j with dim := dim }

end Extent

/-- A box: extents, and the intercept and slopes of its model. -/
structure Box (α : Type) [Scalar α] where
  extents : List Extent
  slopes : List α
  intercept : α

namespace Box

/-- Whether the dimensions of the extents go up strictly. -/
def increasing : List Extent → Bool
  | e :: f :: rest => decide (e.dim < f.dim) && increasing (f :: rest)
  | _ => true

/-- The box with these extents and a model that is zero everywhere. -/
def flat (extents : List Extent) : Box α where
  extents := extents
  slopes := List.replicate extents.length ((0 : Nat) : α)
  intercept := ((0 : Nat) : α)

/-- The flat box with these extents, unless their dimensions fail to go up strictly. -/
def ofExtents? (extents : List Extent) : Option (Box α) :=
  if increasing extents then some (flat extents) else none

/-- The flat box with extents given as dimension, first and last index; refused if one of them is
inverted or the dimensions do not go up strictly. -/
def ofBounds? (bounds : List (Nat × Nat × Nat)) : Option (Box α) := do
  ofExtents? (← bounds.mapM fun (dim, lo, hi) => Extent.of? dim lo hi)

/-- The flat box of a single index along each given dimension. -/
def point? (coords : List (Nat × Nat)) : Option (Box α) :=
  ofExtents? (coords.map fun (dim, j) => Extent.point dim j)

/-- The flat box over the first dimensions of a domain, one for each interval. -/
def ofIntervals (intervals : List Interval) : Box α :=
  flat (intervals.mapIdx fun dim i => { i with dim := dim })

/-- The flat box of a single index tuple, one index for each of the first dimensions. -/
def ofPoint (tuple : List Nat) : Box α :=
  ofIntervals (tuple.map Interval.point)

/-- The flat box of all indices of a domain, unless the domain has no variable. -/
def universe? (d : Domain α) : Option (Box α) :=
  if d.isEmpty then none
  else some (ofIntervals (d.vars.map fun v => { lo := 0, hi := v.lastIndex }))

/-- Replace the model.  Slopes beyond the extents are dropped and missing ones are zero. -/
def setModel (b : Box α) (slopes : List α) (intercept : α) : Box α where
  extents := b.extents
  slopes := slopes.take b.extents.length ++
    List.replicate (b.extents.length - slopes.length) ((0 : Nat) : α)
  intercept := intercept

/-- The number of extents. -/
def dims (b : Box α) : Nat :=
  b.extents.length

/-- The span of each extent. -/
def spans (b : Box α) : List Nat :=
  b.extents.map (·.span)

/-- The dimension of each extent. -/
def dimensions (b : Box α) : List Nat :=
  b.extents.map (·.dim)

/-- Whether every extent is a single index. -/
def isPoint (b : Box α) : Bool :=
  b.extents.all (·.isPoint)

/-- Whether the extents are those of the first `n` dimensions, in order. -/
def spansFirst (b : Box α) (n : Nat) : Bool :=
  b.dimensions == List.range n

/-- The number of index tuples in the box, where every product on the way to it is a count word. -/
def pointCount? (b : Box α) : Option Nat :=
  b.spans.foldlM (fun n span => countWord? (n * (span + 1))) 1

/-- The position of the extent with the largest span, the first of several; 0 without extents. -/
def longestExtent (b : Box α) : Nat :=
  (b.spans.idxOf? (b.spans.foldl max 0)).getD 0

/-- Whether two boxes have the same extents and numerically the same model. -/
def same (b c : Box α) : Bool :=
  b.extents == c.extents && b.slopes == c.slopes && b.intercept == c.intercept

instance : BEq (Box α) := ⟨same⟩

end Box

end IntervalProgramming
