import IntervalProgramming.Map.Grid

/-!
# Piecewise maps

A piecewise map is a function on the index tuples of a domain, given by a list of boxes that are all
read as constant or all as linear.  Boxes are only ever appended or changed in place, so the position
of a box is stable.  Where boxes overlap the first one counts, and where there is none the map has no
value.

A map may carry a grid over its boxes.  The type says that such a grid is the one over the present
boxes: an operation that changes a box drops it, and it comes back with `updateGrid`.
-/

namespace IntervalProgramming

variable {α : Type} [Scalar α]

/-- A piecewise constant or piecewise linear function over a domain. -/
structure PiecewiseMap (α : Type) [Scalar α] where
  domain : Domain α
  degree : Degree
  boxes : Array (Box α)
  /-- The cell widths for the next grid, if they are prescribed. -/
  gridCell : Option (List Nat) := none
  grid : Option (Grid α) := none
  /-- A grid that is present indexes the present boxes. -/
  grid_current : ∀ g, grid = some g → ∃ cell, g = Grid.build domain degree boxes.toList cell := by
    intro _ h
    cases h

namespace PiecewiseMap

/-- The map with these boxes, without a grid. -/
def ofBoxes (domain : Domain α) (degree : Degree) (boxes : List (Box α)) : PiecewiseMap α where
  domain := domain
  degree := degree
  boxes := boxes.toArray

/-- The number of boxes. -/
def size (m : PiecewiseMap α) : Nat :=
  m.boxes.size

/-- Whether the map has no box. -/
def isEmpty (m : PiecewiseMap α) : Bool :=
  m.boxes.isEmpty

/-- The box of all indices of the domain. -/
def universe? (m : PiecewiseMap α) : Option (Box α) :=
  Box.universe? m.domain

/-- Replace the boxes.  The grid is dropped, the prescribed cell widths stay. -/
def withBoxes (m : PiecewiseMap α) (boxes : Array (Box α)) : PiecewiseMap α where
  domain := m.domain
  degree := m.degree
  boxes := boxes
  gridCell := m.gridCell

/-- Drop the grid. -/
def dropGrid (m : PiecewiseMap α) : PiecewiseMap α :=
  m.withBoxes m.boxes

/-- Append a box after all others. -/
def append (m : PiecewiseMap α) (b : Box α) : PiecewiseMap α :=
  m.withBoxes (m.boxes.push b)

/-- Change the box at position `ix`, if there is one.  The grid is dropped in any case. -/
def modifyBox (m : PiecewiseMap α) (ix : Nat) (f : Box α → Box α) : PiecewiseMap α :=
  m.withBoxes (m.boxes.modify ix f)

/-- Change every box. -/
def mapBoxes (m : PiecewiseMap α) (f : Box α → Box α) : PiecewiseMap α :=
  m.withBoxes (m.boxes.map f)

/-- Prescribe the cell widths for the next grid.  A grid that is present stays. -/
def setGridCell (m : PiecewiseMap α) (cell : List Nat) : PiecewiseMap α :=
  { m with gridCell := some cell }

/-- The cell widths for the next grid: the prescribed ones, or an even split into about one cell for
each box. -/
def nextCell (m : PiecewiseMap α) : List Nat :=
  m.gridCell.getD (m.domain.evenCell m.size)

/-- Build the grid over the present boxes. -/
def updateGrid (m : PiecewiseMap α) : PiecewiseMap α where
  domain := m.domain
  degree := m.degree
  boxes := m.boxes
  gridCell := m.gridCell
  grid := some (Grid.build m.domain m.degree m.boxes.toList m.nextCell)
  grid_current := by
    intro g h
    exact ⟨m.nextCell, (Option.some.inj h).symm⟩

/-- Build the grid over the present boxes unless there is one. -/
def ensureGrid (m : PiecewiseMap α) : PiecewiseMap α :=
  if m.grid.isSome then m else m.updateGrid

/-- The positions of the boxes that meet `query`, in order. -/
def overlapping (m : PiecewiseMap α) (query : Box α) : List Nat :=
  match m.grid with
  | some g => g.query m.boxes query
  | none => (List.range m.size).filter (Box.meetsAt m.boxes query)

/-- An upper bound on the values of the map inside `query`; `none` if it has no box there.  A grid
makes the bound cheaper and possibly higher. -/
def bound (m : PiecewiseMap α) (query : Box α) : Option α :=
  match m.grid with
  | some g => g.bound query
  | none =>
    Scalar.upperBound
      ((m.boxes.toList.filter (·.intersects query)).map (·.maxValAs m.degree))

/-- The value of the map at an index tuple, where a box holds it. -/
def eval? (m : PiecewiseMap α) (tuple : List Nat) : Option α := do
  let ix ← (m.overlapping (Box.ofPoint tuple)).head?
  let b ← m.boxes[ix]?
  return b.evalAs tuple m.degree

/-- The largest value of any box. -/
def maxWeight? (m : PiecewiseMap α) : Option α :=
  Scalar.largest? (m.boxes.toList.map (·.maxValAs m.degree))

/-- The smallest value of any box. -/
def minWeight? (m : PiecewiseMap α) : Option α :=
  Scalar.smallest? (m.boxes.toList.map (·.minValAs m.degree))

/-- The first box whose largest value is above that of every box before it and not below that of any
box after it. -/
def heaviestBox? (m : PiecewiseMap α) : Option (Box α) :=
  m.boxes.toList.foldl
    (fun best b =>
      match best with
      | none => some b
      | some top => if top.maxValAs m.degree < b.maxValAs m.degree then some b else some top)
    none

/-- A tuple where the map attains its largest value. -/
def maxPoint? (m : PiecewiseMap α) : Option (List Nat) :=
  m.heaviestBox?.map (·.maxPointAs m.degree)

/-- Whether every index tuple of the domain lies in exactly one box.  A domain without variables has
no partition.  The tuples are tried one by one, the first coordinate running fastest, up to the first
that fails. -/
def isPartition (m : PiecewiseMap α) : Bool :=
  !m.domain.isEmpty &&
    Tuple.allBelow m.domain.counts fun tuple => m.boxes.toList.countP (·.contains tuple) == 1

end PiecewiseMap

end IntervalProgramming
