import IntervalProgramming.Map.Basic

/-!
# Rescaling maps

Weighting multiplies all values of a map by a factor; normalising sends its values onto a given range
by one affine map.  Both change models only: the extents and the order of the boxes stay.
-/

namespace IntervalProgramming.PiecewiseMap

variable {α : Type} [Scalar α]

/-- Multiply every value by `w`. -/
def applyWeight (m : PiecewiseMap α) (w : α) : PiecewiseMap α :=
  m.mapBoxes (·.scale w)

/-- The relative width below which the values of a map count as all the same: the spacing of binary
floating point numbers just above one. -/
def flatTolerance : α :=
  ((1 : Nat) : α) / ((Nat.pow 2 52 : Nat) : α)

/-- Whether values from `least` to `greatest` count as all the same. -/
def isFlatRange (least greatest : α) : Bool :=
  decide (greatest - least ≤
    flatTolerance * Scalar.max (Scalar.abs greatest) ((1 : Nat) : α))

/-- Send the values of the map onto the range from `lo` to `hi`.  If its values count as all the same
they all become `hi`.  A map without boxes is left alone. -/
def normalize (m : PiecewiseMap α) (lo hi : α) : PiecewiseMap α :=
  match m.minWeight?, m.maxWeight? with
  | some least, some greatest =>
    if isFlatRange least greatest then m.mapBoxes (·.level hi)
    else m.mapBoxes (·.stretch least ((hi - lo) / (greatest - least)) lo)
  | _, _ => m

end IntervalProgramming.PiecewiseMap
