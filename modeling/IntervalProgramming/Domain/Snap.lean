import IntervalProgramming.Domain.Basic

/-!
# From values to indices

A value of a variable's range is turned into a grid index by rounding down, up, or to the nearest.
Values at or beyond an end of the range always give the index of that end, so only the inside is
rounded.  Rounding up divides the distance from the low end by the step and takes the next whole
number; rounding to the nearest first moves the value half a step down and then rounds up, which
sends an exact midpoint to the lower index.

The neighbours of a value are the grid values one step from the index that it rounds to.

Rounding up takes the successor of a whole part, and so does the step up from an index.  Where that
successor leaves its index word the functions in words have no result.
-/

namespace IntervalProgramming

variable {α : Type} [Scalar α]

/-- How a value between two grid values is rounded. -/
inductive Snap where
  /-- To the largest index whose value is not above it. -/
  | down
  /-- To the smallest index whose value is not below it. -/
  | up
  /-- To the index whose value is closest, an exact midpoint to the lower one. -/
  | nearest
  deriving DecidableEq, Repr

namespace ValueRange

/-- The smallest index whose value is not below `x`, at most the last one. -/
def indexFrom (r : ValueRange α) (x : α) : Nat :=
  let steps := (x - r.low) / r.delta
  if steps ≤ ((0 : Nat) : α) then 0
  else
    let whole := Scalar.wholePart maxIndex steps
    min (if (whole : α) < steps then whole + 1 else whole) r.lastIndex

/-- `indexFrom` with the successor of the whole part in an index word. -/
def indexFromInWords? (r : ValueRange α) (x : α) : Option Nat :=
  let steps := (x - r.low) / r.delta
  if steps ≤ ((0 : Nat) : α) then some 0
  else do
    let whole := Scalar.wholePart maxIndex steps
    let j ← if (whole : α) < steps then indexAfter? whole else some whole
    return min j r.lastIndex

/-- The index that `x` rounds to.  The ends of the range come first: at or below `low` it is 0, at or
above `high` the last index. -/
def discretize (r : ValueRange α) (x : α) (snap : Snap) : Nat :=
  if x ≤ r.low then 0
  else if r.high ≤ x then r.lastIndex
  else
    match snap with
    | .down => Scalar.wholePart maxIndex ((x - r.low) / r.delta)
    | .up => r.indexFrom x
    | .nearest => r.indexFrom (x - r.delta / ((2 : Nat) : α))

/-- `discretize` in index words. -/
def discretizeInWords? (r : ValueRange α) (x : α) (snap : Snap) : Option Nat :=
  if x ≤ r.low then some 0
  else if r.high ≤ x then some r.lastIndex
  else
    match snap with
    | .down => some (Scalar.wholePart maxIndex ((x - r.low) / r.delta))
    | .up => r.indexFromInWords? x
    | .nearest => r.indexFromInWords? (x - r.delta / ((2 : Nat) : α))

end ValueRange

namespace Domain

/-- The index that `x` rounds to on the variable at position `k`; 0 where there is no variable. -/
def discretize (d : Domain α) (k : Nat) (x : α) (snap : Snap) : Nat :=
  match d.var? k with
  | none => 0
  | some v => v.discretize x snap

/-- `discretize` in index words. -/
def discretizeInWords? (d : Domain α) (k : Nat) (x : α) (snap : Snap) : Option Nat :=
  match d.var? k with
  | none => some 0
  | some v => v.discretizeInWords? x snap

/-- The grid value that `x` rounds to. -/
def snapped? (d : Domain α) (k : Nat) (x : α) (snap : Snap) : Option α :=
  d.valueAt? k (d.discretize k x snap)

/-- The grid value one step below the one `x` rounds to.  At the bottom it is `x` itself, or the high
end if the range wraps around. -/
def nextLower (d : Domain α) (k : Nat) (x : α) (snap : Snap) (wrap : Bool) : α :=
  match d.var? k with
  | none => x
  | some v =>
    match v.discretize x snap with
    | 0 => if wrap then v.high else x
    | j + 1 => (d.valueAt? k j).getD x

/-- The grid value one step above the one `x` rounds to.  At the top it is `x` itself, or the low end
if the range wraps around. -/
def nextHigher (d : Domain α) (k : Nat) (x : α) (snap : Snap) (wrap : Bool) : α :=
  match d.var? k with
  | none => x
  | some v =>
    let next := v.discretize x snap + 1
    if v.count ≤ next then (if wrap then v.low else x) else (d.valueAt? k next).getD x

/-- `snapped?` in index words. -/
def snappedInWords? (d : Domain α) (k : Nat) (x : α) (snap : Snap) : OptionT Option α := do
  let j ← OptionT.lift (d.discretizeInWords? k x snap)
  (d.valueAt? k j).getM

/-- `nextLower` in index words. -/
def nextLowerInWords? (d : Domain α) (k : Nat) (x : α) (snap : Snap) (wrap : Bool) : Option α :=
  match d.var? k with
  | none => some x
  | some v => do
    match ← v.discretizeInWords? x snap with
    | 0 => return if wrap then v.high else x
    | j + 1 => return (d.valueAt? k j).getD x

/-- `nextHigher` in index words. -/
def nextHigherInWords? (d : Domain α) (k : Nat) (x : α) (snap : Snap) (wrap : Bool) : Option α :=
  match d.var? k with
  | none => some x
  | some v => do
    let next ← indexAfter? (← v.discretizeInWords? x snap)
    return if v.count ≤ next then (if wrap then v.low else x) else (d.valueAt? k next).getD x

end Domain

end IntervalProgramming
