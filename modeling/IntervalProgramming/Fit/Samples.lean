import IntervalProgramming.Ascending
import IntervalProgramming.Box.Basic
import IntervalProgramming.Objective.Basic
import IntervalProgramming.Tuple

/-!
# Sample lattices

A box is sampled on a lattice: along each extent a number of evenly spaced indices from the first to
the last, and all their combinations.  An objective is evaluated at the grid values behind the
indices; the domain variables that a box does not constrain stay at their low value.
-/

namespace IntervalProgramming

variable {α : Type} [Scalar α]

/-- Index number `k` of `n` evenly spaced ones, to the nearest index. -/
def Interval.sample (i : Interval) (n k : Nat) : Nat :=
  i.lo + (k * i.span + (n - 1) / 2) / (n - 1)

/-- Evenly spaced indices of an interval, both ends included: `n` of them, at least two, or all if the
interval has no more. -/
def Interval.samples (i : Interval) (n : Nat) : List Nat :=
  if i.isPoint then [i.lo]
  else
    let taken := min (max n 2) (i.span + 1)
    dropRepeats ((List.range taken).map (i.sample taken))

namespace Box

/-- The sample indices along each extent. -/
def sampleAxes (b : Box α) (n : Nat) : List (List Nat) :=
  b.extents.map (·.samples n)

/-- The sample tuples of a box, the last coordinate running fastest. -/
def sampleTuples (b : Box α) (n : Nat) : List (List Nat) :=
  Tuple.lastFastest (b.sampleAxes n)

end Box

/-- Move a continuous point to the grid values behind an index tuple along the given extents.  A
coordinate without such a value stays where it is. -/
def Domain.moveTo (d : Domain α) (extents : List Extent) (tuple : List Nat) (point : List α) :
    List α :=
  (extents.zip tuple).foldl
    (fun point (e, j) =>
      match d.valueAt? e.dim j with
      | none => point
      | some x => point.set e.dim x) point

/-- The values of an objective at index tuples along the given extents, visited in order from a
continuous point.  Also gives the continuous point where the visit ends. -/
def Objective.visit (o : Objective α) (extents : List Extent) (tuples : List (List Nat))
    (start : List α) : List α × List α :=
  let (values, last) := tuples.foldl
    (fun (values, point) tuple =>
      let here := o.domain.moveTo extents tuple point
      (o.value here :: values, here)) ([], start)
  (values.reverse, last)

end IntervalProgramming
