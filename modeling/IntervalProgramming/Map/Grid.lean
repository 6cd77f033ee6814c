import IntervalProgramming.Ascending
import IntervalProgramming.Box.Geometry
import IntervalProgramming.Domain.EvenSplit
import IntervalProgramming.Tuple

/-!
# Cell grids

A grid divides the indices of a domain into equal cells and remembers, for each cell, which boxes of a
list reach into it and an upper bound on their values.  A query then looks only at the cells under the
query box.  Indices beyond the domain belong to the last cell of their dimension, so boxes and queries
may reach past the domain.

A grid has at most `Grid.maxCells` cells: as long as there would be more, the cells are doubled along
the dimension that has most of them.
-/

namespace IntervalProgramming

variable {α : Type} [Scalar α]

/-- One dimension of a grid: how many indices it has and how many of them make a cell. -/
structure GridAxis where
  points : UInt32
  cell : Nat
  deriving DecidableEq, Repr

namespace GridAxis

/-- The number of cells, at least one. -/
def count (a : GridAxis) : Nat :=
  max (ceilDiv a.points.toNat a.cell) 1

/-- The axis with cells twice as wide, as far as an index word holds the width. -/
def doubled (a : GridAxis) : GridAxis :=
  { a with cell := min (2 * a.cell) maxIndex }

/-- The first and last cell that an interval reaches into; indices beyond the last cell count as in
it. -/
def cellRange (a : GridAxis) (i : Interval) : Nat × Nat :=
  (min (i.lo / a.cell) (a.count - 1), min (i.hi / a.cell) (a.count - 1))

/-- How much an axis can still be coarsened. -/
def room (a : GridAxis) : Nat :=
  a.points.toNat - a.cell

theorem room_doubled_lt {a : GridAxis} (h : 1 < a.count) : a.doubled.room < a.room := by
  have hp := a.points.toNat_lt
  have hc : 0 < a.cell := by
    rcases Nat.eq_zero_or_pos a.cell with h0 | h0
    · simp [count, ceilDiv, h0] at h
    · exact h0
  have hlt : a.cell < a.points.toNat := by
    have h1 : 1 < (a.points.toNat + a.cell - 1) / a.cell := by
      simp only [count, ceilDiv] at h
      omega
    have h2 : 2 * a.cell ≤ a.points.toNat + a.cell - 1 := (Nat.le_div_iff_mul_le hc).mp h1
    omega
  simp only [room, doubled, maxIndex_eq]
  omega

end GridAxis

/-- A cell of a grid: which boxes of the list reach into it, by position, and an upper bound on their
values. -/
structure GridCell (α : Type) [Scalar α] where
  members : List Nat := []
  peak : Option α := none

namespace GridCell

/-- Enter the box at position `ix` with its largest value. -/
def enter (c : GridCell α) (ix : Nat) (value : α) : GridCell α where
  members := ix :: c.members
  peak := Scalar.raise c.peak value

end GridCell

/-- A grid over a list of boxes. -/
structure Grid (α : Type) [Scalar α] where
  axes : List GridAxis
  cells : Array (GridCell α)

namespace Grid

/-- The largest number of cells in a grid. -/
def maxCells : Nat := Nat.pow 2 20

/-- The number of cells that axes make. -/
def total (axes : List GridAxis) : Nat :=
  (axes.map (·.count)).foldl (· * ·) 1

/-- The largest number of cells along an axis. -/
def widest (axes : List GridAxis) : Nat :=
  (axes.map (·.count)).foldl max 0

/-- Double the cells along the first axis that has `n` of them. -/
def doubleFirst (n : Nat) : List GridAxis → List GridAxis
  | [] => []
  | a :: axes => if a.count = n then a.doubled :: axes else a :: doubleFirst n axes

/-- How much the axes can still be coarsened. -/
def room : List GridAxis → Nat
  | [] => 0
  | a :: axes => a.room + room axes

theorem exists_count_eq_foldl_max (axes : List GridAxis) (n : Nat) :
    (axes.map (·.count)).foldl max n = n ∨
      ∃ a ∈ axes, a.count = (axes.map (·.count)).foldl max n := by
  induction axes generalizing n with
  | nil => exact Or.inl rfl
  | cons a axes ih =>
    simp only [List.map_cons, List.foldl_cons]
    rcases ih (max n a.count) with h | ⟨b, hb, hbc⟩
    · rw [h]
      rcases Nat.le_total a.count n with hle | hle
      · exact Or.inl (Nat.max_eq_left hle)
      · exact Or.inr ⟨a, List.mem_cons_self, (Nat.max_eq_right hle).symm⟩
    · exact Or.inr ⟨b, List.mem_cons_of_mem a hb, hbc⟩

theorem le_foldl_max (xs : List Nat) (n : Nat) :
    n ≤ xs.foldl max n ∧ ∀ x ∈ xs, x ≤ xs.foldl max n := by
  induction xs generalizing n with
  | nil => simp
  | cons x xs ih =>
    have h := ih (max n x)
    simp only [List.foldl_cons, List.mem_cons, forall_eq_or_imp]
    exact ⟨by omega, by omega, h.2⟩

theorem foldl_mul_le_one (xs : List Nat) (n : Nat) (hn : n ≤ 1) (h : ∀ x ∈ xs, x ≤ 1) :
    xs.foldl (· * ·) n ≤ 1 := by
  induction xs generalizing n with
  | nil => simpa using hn
  | cons x xs ih =>
    simp only [List.foldl_cons]
    refine ih (n * x) ?_ fun y hy => h y (List.mem_cons_of_mem x hy)
    have hx := h x List.mem_cons_self
    calc n * x ≤ 1 * 1 := Nat.mul_le_mul hn hx
      _ = 1 := rfl

/-- Axes that make several cells have an axis with the largest number of cells, and it has several. -/
theorem exists_widest {axes : List GridAxis} (h : 1 < total axes) :
    ∃ a ∈ axes, a.count = widest axes ∧ 1 < a.count := by
  have hw : 1 < widest axes := by
    rcases Nat.lt_or_ge 1 (widest axes) with hw | hw
    · exact hw
    · have hall := (le_foldl_max (axes.map (·.count)) 0).2
      have := foldl_mul_le_one (axes.map (·.count)) 1 (Nat.le_refl 1)
        fun x hx => Nat.le_trans (hall x hx) hw
      simp only [total] at h
      omega
  rcases exists_count_eq_foldl_max axes 0 with h0 | ⟨a, ha, hac⟩
  · simp only [widest] at hw
    omega
  · exact ⟨a, ha, hac, hac ▸ hw⟩

theorem room_doubleFirst_lt {n : Nat} (hn : 1 < n) {axes : List GridAxis}
    (h : ∃ a ∈ axes, a.count = n) : room (doubleFirst n axes) < room axes := by
  induction axes with
  | nil => simp at h
  | cons a axes ih =>
    simp only [doubleFirst]
    split
    · have := GridAxis.room_doubled_lt (a := a) (by omega)
      simp only [room]
      omega
    · have h' : ∃ b ∈ axes, b.count = n := by
        obtain ⟨b, hb, hbn⟩ := h
        rcases List.mem_cons.mp hb with rfl | hb
        · contradiction
        · exact ⟨b, hb, hbn⟩
      have := ih h'
      simp only [room]
      omega

/-- Widen the cells until there are at most `maxCells` of them. -/
def coarsen (axes : List GridAxis) : List GridAxis :=
  if _h : maxCells < total axes then coarsen (doubleFirst (widest axes) axes) else axes
termination_by room axes
decreasing_by
  have h1 : 1 < total axes := Nat.lt_trans (by decide) _h
  obtain ⟨a, ha, hac, hlt⟩ := exists_widest h1
  exact room_doubleFirst_lt (hac ▸ hlt) ⟨a, ha, hac⟩

/-- The axes asked for: one for each variable, with cell widths from a list.  A width that is missing
or zero counts as one. -/
def requestedAxes (d : Domain α) (cell : List Nat) : List GridAxis :=
  d.vars.mapIdx fun k v => { points := v.points, cell := max (cell[k]?.getD 1) 1 }

/-- The cells under a box, as a range for each axis.  `none` unless the extents of the box are those
of the axes, in order. -/
def cellRanges? (axes : List GridAxis) (b : Box α) : Option (List (Nat × Nat)) :=
  if b.spansFirst axes.length then
    some (List.zipWith (fun a e => a.cellRange e.toInterval) axes b.extents)
  else none

/-- The position of the cell with the given coordinates, the first coordinate running fastest. -/
def flatten : List Nat → List Nat → Nat
  | n :: counts, c :: coords => c + n * flatten counts coords
  | _, _ => 0

/-- The positions of the cells in a product of ranges. -/
def positions (counts : List Nat) (ranges : List (Nat × Nat)) : List Nat :=
  let axes := ranges.map fun (first, last) => List.range' first (last + 1 - first)
  (Tuple.firstFastest axes).map (flatten counts)

/-- The positions of the cells under a box; none at all unless its extents are those of the axes. -/
def cellsUnder (axes : List GridAxis) (b : Box α) : List Nat :=
  match cellRanges? axes b with
  | none => []
  | some ranges => positions (axes.map (·.count)) ranges

/-- A grid without boxes. -/
def vacant (axes : List GridAxis) : Grid α where
  axes := axes
  cells := Array.replicate (total axes) {}

/-- Enter the box at position `ix` into the cells under it. -/
def enter (degree : Degree) (g : Grid α) (ix : Nat) (b : Box α) : Grid α :=
  let value := b.maxValAs degree
  { axes := g.axes
    cells := (cellsUnder g.axes b).foldl
      (fun cells c => cells.modify c (·.enter ix value)) g.cells }

/-- Enter boxes into a grid, from position `ix` on. -/
def enterAll (degree : Degree) : Nat → List (Box α) → Grid α → Grid α
  | _, [], g => g
  | ix, b :: boxes, g => enterAll degree (ix + 1) boxes (g.enter degree ix b)

/-- The grid over a list of boxes with cells of the widths asked for, widened until it is small
enough. -/
def build (d : Domain α) (degree : Degree) (boxes : List (Box α)) (cell : List Nat) : Grid α :=
  enterAll degree 0 boxes (vacant (coarsen (requestedAxes d cell)))

/-- The cell widths of a grid. -/
def cellWidths (g : Grid α) : List Nat :=
  g.axes.map (·.cell)

/-- The number of cells of a grid. -/
def cellCount (g : Grid α) : Nat :=
  g.cells.size

/-- The cells under a box. -/
def cellsAt (g : Grid α) (b : Box α) : List (GridCell α) :=
  (cellsUnder g.axes b).filterMap (g.cells[·]?)

/-- The positions of the boxes that reach into a cell under `b`, in order. -/
def candidates (g : Grid α) (b : Box α) : List Nat :=
  ascending ((g.cellsAt b).flatMap (·.members))

/-- The positions of the boxes that meet `b`, in order.  The boxes are those the grid was built
from. -/
def query (g : Grid α) (boxes : Array (Box α)) (b : Box α) : List Nat :=
  (g.candidates b).filter (Box.meetsAt boxes b)

/-- An upper bound on the values of the boxes that reach into the cells under `b`; `none` if there are
none. -/
def bound (g : Grid α) (b : Box α) : Option α :=
  (g.cellsAt b).foldl (fun bound c => Scalar.join bound c.peak) none

end Grid

end IntervalProgramming
