import IntervalProgramming.Map.Basic

/-!
# Regular tilings

A region is tiled by boxes of the width of a unit box along every dimension, laid from the low corner
of the region; the last one along a dimension is cut off at the region's border.  Tiles are listed
with the first dimension running fastest.
-/

namespace IntervalProgramming

variable {α : Type} [Scalar α]

/-- The width of an interval, as far as an index word holds it. -/
def Interval.width (i : Interval) : Nat :=
  min (i.span + 1) maxIndex

/-- Tile number `c` of width `w` within an interval; the last tile is the one with the number
`i.span / w`. -/
def Interval.tile (i : Interval) (w c : Nat) : Interval :=
  let lo := min (i.lo + c * w) i.hi
  { lo := lo, hi := min (lo + (w - 1)) i.hi }

/-- The tiles of width `w` that make up an interval, in order. -/
def Interval.tiles (i : Interval) (w : Nat) : List Interval :=
  (List.range (i.span / w + 1)).map (i.tile w)

namespace Box

/-- The extents of the tiles along each dimension of a region. -/
def tileAxes (region unit : Box α) : List (List Extent) :=
  List.zipWith
    (fun e u => (e.tiles u.width).map fun i => { i with dim := e.dim : Extent })
    region.extents unit.extents

/-- The flat boxes that tile a region in the widths of a unit box; `none` if the two do not have
equally many extents, or if the dimensions of the region do not go up strictly. -/
def tiles? (region unit : Box α) : Option (List (Box α)) :=
  if region.dims == unit.dims then (Tuple.firstFastest (tileAxes region unit)).mapM ofExtents?
  else none

end Box

/-- The regular tiling of a domain in the widths of a unit box, which become the prescribed cell
widths.  `none` if the domain has no variable, the unit does not have one extent for each, or there is
no tile. -/
def PiecewiseMap.uniform? (d : Domain α) (unit : Box α) (degree : Degree) :
    Option (PiecewiseMap α) := do
  let whole ← Box.universe? d
  if unit.spansFirst whole.dims then
    let tiles ← whole.tiles? unit
    if tiles.isEmpty then none
    else return (ofBoxes d degree tiles).setGridCell (unit.extents.map (·.width))
  else none

end IntervalProgramming
