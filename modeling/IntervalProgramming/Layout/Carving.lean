import IntervalProgramming.Layout.Tiling

/-!
# Carving regions out of a map

Two ways to change the layout of a map inside given regions and leave it alone outside of them.
Re-tiling replaces what a region holds by a regular tiling with flat models.  Inserting plateaus
replaces it by the region itself, as a box of its own.  In both, boxes that cross the border of a
region keep their outside parts, with their models.
-/

namespace IntervalProgramming

variable {α : Type} [Scalar α]

/-- The parts of the boxes of a list outside a region. -/
def Box.subtractFrom (boxes : List (Box α)) (region : Box α) : List (Box α) :=
  boxes.flatMap (·.subtract region)

/-- The parts of `b` outside all boxes of a list. -/
def Box.subtractAll (b : Box α) (others : List (Box α)) : List (Box α) :=
  others.foldl Box.subtractFrom [b]

/-- A list of boxes made disjoint: of each box the parts outside all earlier ones are kept. -/
def Box.disjointParts (boxes : List (Box α)) : List (Box α) :=
  boxes.foldl (fun parts b => parts ++ b.subtractAll parts) []

namespace PiecewiseMap

/-- Lay out the inside of a region anew, tiled in the widths of a unit box.  Boxes clear of the region
come first, then what is left of the others, then the tiles.  `none` if the region does not lie in the
domain with all its dimensions, or the unit has another number of extents or a wider one. -/
def retile? (m : PiecewiseMap α) (region unit : Box α) : Option (PiecewiseMap α) := do
  let whole ← m.universe?
  if region.isWithin whole && unit.dims == region.dims &&
      (unit.spans.zip region.spans).all (fun (u, r) => decide (u ≤ r)) then
    let (crossing, clear) := m.boxes.toList.partition (·.intersects region)
    let tiles ← region.tiles? unit
    return m.withBoxes (clear ++ Box.subtractFrom crossing region ++ tiles).toArray
  else none

/-- Whether every plateau lies in the domain with all its dimensions. -/
def admitsAll (m : PiecewiseMap α) (plateaus : List (Box α)) : Bool :=
  match m.universe? with
  | none => false
  | some whole => plateaus.all (·.isWithin whole)

/-- Carve plateaus out of a map and append them after all other boxes.  Where plateaus overlap the
earlier one has the place.  Also gives the position of the first plateau.  `none` if the domain has no
variable or a plateau does not lie in it with all its dimensions. -/
def insertPlateaus? (m : PiecewiseMap α) (plateaus : List (Box α)) :
    Option (PiecewiseMap α × Nat) :=
  if m.admitsAll plateaus then
    let raised := Box.disjointParts plateaus
    let rest := raised.foldl Box.subtractFrom m.boxes.toList
    some (m.withBoxes (rest ++ raised).toArray, rest.length)
  else none

end PiecewiseMap

end IntervalProgramming
