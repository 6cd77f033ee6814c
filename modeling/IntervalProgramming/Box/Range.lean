import IntervalProgramming.Box.Basic
import IntervalProgramming.Domain.EvenSplit
import IntervalProgramming.Domain.Snap

/-!
# Boxes from continuous ranges

A range of values becomes an interval of indices by rounding its low end up and its high end down, so
no index stands for a value outside the range.  A range that falls between two neighbouring grid
values holds no index; it becomes the single index nearest to its midpoint.  A range beyond an end of
the variable holds none either; both of its ends are rounded to the index of that end.
-/

namespace IntervalProgramming

variable {α : Type} [Scalar α]

/-- The indices whose values lie between `low` and `high`; the nearest single index if the range is
one value or lies between two grid values.  `none` unless `low ≤ high`. -/
def ValueRange.interval? (r : ValueRange α) (low high : α) : Option Interval :=
  if low ≤ high then
    if low == high then some (Interval.point (r.discretize low .nearest))
    else
      let lo := r.discretize low .up
      let hi := r.discretize high .down
      if h : lo ≤ hi then some { lo := lo, hi := hi, le := h }
      else some (Interval.point (r.discretize ((low + high) / ((2 : Nat) : α)) .nearest))
  else none

/-- `interval?` in index words. -/
def ValueRange.intervalInWords? (r : ValueRange α) (low high : α) : OptionT Option Interval :=
  if low ≤ high then
    if low == high then do
      return Interval.point (← OptionT.lift (r.discretizeInWords? low .nearest))
    else do
      let lo ← OptionT.lift (r.discretizeInWords? low .up)
      let hi ← OptionT.lift (r.discretizeInWords? high .down)
      if h : lo ≤ hi then return { lo := lo, hi := hi, le := h }
      else
        let middle := (low + high) / ((2 : Nat) : α)
        return Interval.point (← OptionT.lift (r.discretizeInWords? middle .nearest))
  else failure

/-- The extent along a named variable of the values between `low` and `high`. -/
def Domain.extent? (d : Domain α) (name : String) (low high : α) : Option Extent := do
  let dim ← d.indexOf? name
  let v ← d.var? dim
  let i ← v.interval? low high
  return { i with dim := dim }

/-- `extent?` in index words. -/
def Domain.extentInWords? (d : Domain α) (name : String) (low high : α) :
    OptionT Option Extent := do
  let dim ← (d.indexOf? name).getM
  let v ← (d.var? dim).getM
  let i ← v.intervalInWords? low high
  return { i with dim := dim }

namespace Box

/-- The flat box over one variable that covers a range of its values. -/
def ofRange? (d : Domain α) (name : String) (low high : α) : Option (Box α) := do
  ofExtents? [← d.extent? name low high]

/-- `ofRange?` in index words. -/
def ofRangeInWords? (d : Domain α) (name : String) (low high : α) : OptionT Option (Box α) := do
  (ofExtents? [← d.extentInWords? name low high]).getM

/-- The flat box over two different variables that covers a range of each.  Its extents are in the
order of the domain. -/
def ofRanges? (d : Domain α) (name₁ name₂ : String) (range₁ range₂ : α × α) :
    Option (Box α) :=
  if name₁ == name₂ then none
  else do
    let e ← d.extent? name₁ range₁.1 range₁.2
    let f ← d.extent? name₂ range₂.1 range₂.2
    ofExtents? (if e.dim < f.dim then [e, f] else [f, e])

/-- `ofRanges?` in index words. -/
def ofRangesInWords? (d : Domain α) (name₁ name₂ : String) (range₁ range₂ : α × α) :
    OptionT Option (Box α) :=
  if name₁ == name₂ then failure
  else do
    let e ← d.extentInWords? name₁ range₁.1 range₁.2
    let f ← d.extentInWords? name₂ range₂.1 range₂.2
    (ofExtents? (if e.dim < f.dim then [e, f] else [f, e])).getM

/-- The flat box of the index nearest to each given value; `none` if a variable is unknown or named
twice. -/
def nearestPoint? (d : Domain α) (values : List (String × α)) : Option (Box α) := do
  let coords ← values.mapM fun (name, x) => do
    let dim ← d.indexOf? name
    return (dim, d.discretize dim x .nearest)
  point? (coords.mergeSort fun c₁ c₂ => c₁.1 ≤ c₂.1)

/-- `nearestPoint?` in index words. -/
def nearestPointInWords? (d : Domain α) (values : List (String × α)) :
    OptionT Option (Box α) := do
  let coords ← values.mapM fun (name, x) => do
    let dim ← (d.indexOf? name).getM
    return (dim, ← OptionT.lift (d.discretizeInWords? dim x .nearest))
  (point? (coords.mergeSort fun c₁ c₂ => c₁.1 ≤ c₂.1)).getM

/-- The flat box of the given widths from index 0, one for each of the first dimensions.  A width of
zero counts as one. -/
def ofWidths? (widths : List Nat) : Option (Box α) :=
  ofBounds? (widths.mapIdx fun dim w => (dim, 0, w - 1))

/-- The unit of a tiling of the domain into about `amount` boxes, with equally many along every
dimension as far as the point counts allow.  `none` if the domain has no variable. -/
def unitForAmount? (d : Domain α) (amount : Nat) : Option (Box α) :=
  if d.isEmpty then none else ofWidths? (d.evenCell amount)

end Box

end IntervalProgramming
