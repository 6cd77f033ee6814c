import Mathlib.Algebra.Order.BigOperators.GroupWithZero.List
import Mathlib.Tactic.Ring
import IntervalProgramming.Proofs.Grid.Coarsening
import IntervalProgramming.Proofs.Grid.Index
import IntervalProgramming.Proofs.Layout.Volume
import IntervalProgramming.Proofs.Tuple.Counter

/-!
# The visits of a grid

A grid visits the cells under a box with a counter over the ranges of cells and
finds the position of each cell as a sum of coordinates times strides.  All of
this is done in words.  Since a grid has few cells, no stride, no part of a sum
and no coordinate leaves its word, every position is one of the grid, and each
cell of the ranges is visited once, wherever the box lies.
-/

namespace IntervalProgramming

variable {α : Type} [Scalar α]

namespace Grid

/-! ## Strides and positions -/

/-- The strides of axes: for each the product of the counts before it. -/
def strides (stride : ℕ) : List ℕ → List ℕ
  | [] => []
  | n :: counts => stride :: strides (stride * n) counts

/-- The strides of axes with the products formed in count words; `none` if one
leaves its word, the product of all counts included. -/
def stridesInWords? (stride : ℕ) : List ℕ → Option (List ℕ)
  | [] => some []
  | n :: counts => do
      let next ← countWord? (stride * n)
      let rest ← stridesInWords? next counts
      some (stride :: rest)

/-- The sum of coordinates times strides, formed in count words; `none` if a
product or a sum leaves its word. -/
def positionInWords? (sum : ℕ) : List ℕ → List ℕ → Option ℕ
  | stride :: strides, c :: coords => do
      let part ← countWord? (c * stride)
      let sum ← countWord? (sum + part)
      positionInWords? sum strides coords
  | _, _ => some sum

theorem stridesInWords?_eq {counts : List ℕ} (hpos : ∀ n ∈ counts, 0 < n) {stride : ℕ}
    (hword : stride * counts.prod < countLimit) :
    stridesInWords? stride counts = some (strides stride counts) := by
  induction counts generalizing stride with
  | nil => rfl
  | cons n counts ih =>
      obtain ⟨-, hcounts⟩ := List.forall_mem_cons.mp hpos
      rw [List.prod_cons, ← Nat.mul_assoc] at hword
      have hle : stride * n ≤ stride * n * counts.prod :=
        Nat.le_mul_of_pos_right _ (List.prod_pos hcounts)
      rw [stridesInWords?, countWord?_of_lt (Nat.lt_of_le_of_lt hle hword),
        Option.bind_eq_bind, Option.bind_some, ih hcounts hword]
      rfl

/-- The sum up to an axis stays below its stride, so no sum leaves its word. -/
theorem positionInWords?_eq {counts coords : List ℕ}
    (h : List.Forall₂ (· < ·) coords counts) {stride sum : ℕ} (hsum : sum < stride)
    (hword : stride * counts.prod < countLimit) :
    positionInWords? sum (strides stride counts) coords =
      some (sum + stride * flatten counts coords) := by
  induction h generalizing stride sum with
  | nil => rfl
  | @cons c n coords counts hc hcoords ih =>
      rw [List.prod_cons, ← Nat.mul_assoc] at hword
      have hle : stride * n ≤ stride * n * counts.prod :=
        Nat.le_mul_of_pos_right _ (Nat.zero_lt_of_lt (flatten_lt_prod hcoords))
      have hnext : sum + c * stride < stride * n := by
        have hstep : (c + 1) * stride ≤ n * stride := Nat.mul_le_mul_right stride hc
        rw [Nat.succ_mul, Nat.mul_comm n] at hstep
        omega
      rw [strides, positionInWords?, countWord?_of_lt (by omega), Option.bind_eq_bind,
        Option.bind_some, countWord?_of_lt (by omega), Option.bind_some, ih hnext hword,
        flatten]
      congr 1
      ring

/-- Different coordinates have different positions. -/
theorem flatten_inj {counts coords coords' : List ℕ}
    (h : List.Forall₂ (· < ·) coords counts) (h' : List.Forall₂ (· < ·) coords' counts)
    (heq : flatten counts coords = flatten counts coords') : coords = coords' := by
  induction h generalizing coords' with
  | nil => exact (List.forall₂_nil_right_iff.mp h').symm
  | @cons c n coords counts hc hcoords ih =>
      obtain ⟨c', coords', hc', hcoords', rfl⟩ := List.forall₂_cons_right_iff.mp h'
      simp only [flatten] at heq
      have hfirst : c = c' := by
        have hmod := congrArg (· % n) heq
        simpa only [Nat.add_mul_mod_self_left, Nat.mod_eq_of_lt hc,
          Nat.mod_eq_of_lt hc'] using hmod
      subst hfirst
      have hrest := Nat.eq_of_mul_eq_mul_left (Nat.zero_lt_of_lt hc)
        (Nat.add_left_cancel heq)
      rw [ih hcoords' hrest]

/-! ## The ranges of cells under a box -/

/-- Whether a range of cells lies on an axis. -/
def OnAxis (a : GridAxis) (range : ℕ × ℕ) : Prop :=
  range.1 ≤ range.2 ∧ range.2 < a.count

theorem forall₂_onAxis {axes : List GridAxis} {b : Box α} {ranges : List (ℕ × ℕ)}
    (h : cellRanges? axes b = some ranges) : List.Forall₂ OnAxis axes ranges := by
  have hzip : ∀ (axes : List GridAxis) (es : List Extent), es.length = axes.length →
      List.Forall₂ OnAxis axes
        (List.zipWith (fun a e => a.cellRange e.toInterval) axes es) := by
    intro axes
    induction axes with
    | nil => intros; exact .nil
    | cons a axes ih =>
        rintro (_ | ⟨e, es⟩) hlen
        · cases hlen
        · exact .cons ⟨a.cellOf_mono e.le, a.cellOf_lt_count e.hi⟩ (ih es (Nat.succ.inj hlen))
  rw [cellRanges?] at h
  split at h
  · rename_i hspans
    obtain rfl := Option.some.inj h
    exact hzip axes b.extents (Box.length_of_spansFirst hspans)
  · cases h

theorem forall₂_lt_of_mem_coordsIn {axes : List GridAxis} {ranges : List (ℕ × ℕ)}
    (hranges : List.Forall₂ OnAxis axes ranges) {coords : List ℕ}
    (hcoords : coords ∈ coordsIn ranges) :
    List.Forall₂ (· < ·) coords (axes.map (·.count)) := by
  rw [mem_coordsIn] at hcoords
  induction hranges generalizing coords with
  | nil =>
      obtain rfl := List.forall₂_nil_left_iff.mp hcoords
      exact .nil
  | cons hrange _ ih =>
      obtain ⟨c, coords, hc, hrest, rfl⟩ := List.forall₂_cons_left_iff.mp hcoords
      exact .cons (Nat.lt_of_le_of_lt hc.2 hrange.2) (ih hrest)

theorem nodup_coordsIn (ranges : List (ℕ × ℕ)) : (coordsIn ranges).Nodup := by
  apply Tuple.nodup_firstFastest
  rw [List.forall_mem_map]
  exact fun range _ => List.nodup_range'

/-- A counter of ranges on axes goes through their coordinates. -/
theorem listFrom?_within {axes : List GridAxis} {ranges : List (ℕ × ℕ)}
    (hranges : List.Forall₂ OnAxis axes ranges) :
    (Counter.ofPlaces (ranges.map Place.within)).listFrom? (ranges.map (·.1)) =
      some (coordsIn ranges) := by
  have hlists : List.Forall₂ Place.Lists (ranges.map Place.within)
      (ranges.map fun range => List.range' range.1 (range.2 + 1 - range.1)) := by
    induction hranges with
    | nil => exact .nil
    | @cons a range axes ranges hrange _ ih =>
        exact .cons (Place.lists_within hrange.1
          (Nat.le_trans hrange.2.le a.count_le_maxIndex)) ih
  have hlist := Counter.listFrom?_ofPlaces hlists
  rwa [List.map_map] at hlist

/-! ## Visits -/

/-- Positions that name each cell of some ranges once, and no other. -/
structure VisitsOnce (counts : List ℕ) (ranges : List (ℕ × ℕ)) (visited : List ℕ) :
    Prop where
  once : ∀ coords ∈ coordsIn ranges, visited.count (flatten counts coords) = 1
  only : ∀ c ∈ visited, ∃! coords, coords ∈ coordsIn ranges ∧ flatten counts coords = c

theorem visitsOnce_positions {axes : List GridAxis} {ranges : List (ℕ × ℕ)}
    (hranges : List.Forall₂ OnAxis axes ranges) :
    VisitsOnce (axes.map (·.count)) ranges (positions (axes.map (·.count)) ranges) := by
  have hinj : ∀ coords ∈ coordsIn ranges, ∀ coords' ∈ coordsIn ranges,
      flatten (axes.map (·.count)) coords = flatten (axes.map (·.count)) coords' →
        coords = coords' :=
    fun _ h _ h' => flatten_inj (forall₂_lt_of_mem_coordsIn hranges h)
      (forall₂_lt_of_mem_coordsIn hranges h')
  rw [positions_eq]
  constructor
  · intro coords hcoords
    exact List.count_eq_one_of_mem ((nodup_coordsIn ranges).map_on hinj)
      (List.mem_map_of_mem hcoords)
  · intro c hc
    obtain ⟨coords, hcoords, rfl⟩ := List.mem_map.mp hc
    exact ⟨coords, ⟨hcoords, rfl⟩, fun coords' h' => hinj _ h'.1 _ hcoords h'.2⟩

/-- The positions of the cells under a box, visited with a counter and found from
strides, all in words; `none` if something leaves its word. -/
def visitInWords? (strides : List ℕ) (axes : List GridAxis) (b : Box α) :
    Option (List ℕ) :=
  match cellRanges? axes b with
  | none => some []
  | some ranges => do
      let visited ←
        (Counter.ofPlaces (ranges.map Place.within)).listFrom? (ranges.map (·.1))
      visited.mapM (positionInWords? 0 strides)

theorem lt_total_of_mem_cellsUnder {axes : List GridAxis} {b : Box α} {c : ℕ}
    (hc : c ∈ cellsUnder axes b) : c < total axes := by
  rw [cellsUnder] at hc
  split at hc
  · cases hc
  · rename_i ranges hranges
    obtain ⟨coords, hcoords, rfl⟩ := List.mem_map.mp hc
    rw [total_eq_prod]
    exact flatten_lt_prod (forall₂_lt_of_mem_coordsIn (forall₂_onAxis hranges) hcoords)

theorem prod_counts_lt {axes : List GridAxis} (h : total axes ≤ maxCells) :
    1 * (axes.map (·.count)).prod < countLimit := by
  rw [Nat.one_mul, ← total_eq_prod]
  exact Nat.lt_of_le_of_lt h (by decide)

theorem visitInWords?_eq {axes : List GridAxis} (h : total axes ≤ maxCells) (b : Box α) :
    visitInWords? (strides 1 (axes.map (·.count))) axes b = some (cellsUnder axes b) := by
  rw [visitInWords?, cellsUnder]
  cases hranges : cellRanges? axes b with
  | none => rfl
  | some ranges =>
      have haxes := forall₂_onAxis hranges
      simp only [listFrom?_within haxes, Option.bind_eq_bind, Option.bind_some]
      have hposition : ∀ coords ∈ coordsIn ranges,
          positionInWords? 0 (strides 1 (axes.map (·.count))) coords =
            some (flatten (axes.map (·.count)) coords) := by
        intro coords hcoords
        rw [positionInWords?_eq (forall₂_lt_of_mem_coordsIn haxes hcoords) Nat.zero_lt_one
          (prod_counts_lt h), Nat.zero_add, Nat.one_mul]
      exact mapM_eq_some_map hposition

/-! ## Building in words -/

/-- Enter the box at position `ix` into the cells under it, visited in words;
`none` if something leaves its word or a position is not one of the grid. -/
def enterInWords? (strides : List ℕ) (degree : Degree) (g : Grid α) (ix : ℕ) (b : Box α) :
    Option (Grid α) := do
  let value := b.maxValAs degree
  let visited ← visitInWords? strides g.axes b
  let cells ← visited.foldlM (fun cells c =>
    if c < cells.size then some (cells.modify c (·.enter ix value)) else none) g.cells
  some { axes := g.axes, cells := cells }

/-- Enter boxes into a grid, from position `ix` on, in words. -/
def enterAllInWords? (strides : List ℕ) (degree : Degree) :
    ℕ → List (Box α) → Grid α → Option (Grid α)
  | _, [], g => some g
  | ix, b :: boxes, g => do
      let g ← enterInWords? strides degree g ix b
      enterAllInWords? strides degree (ix + 1) boxes g

/-- The grid over a list of boxes, built in words; `none` if something leaves its
word or a position is not one of the grid. -/
def buildInWords? (d : Domain α) (degree : Degree) (boxes : List (Box α))
    (cell : List ℕ) : Option (Grid α) := do
  let axes := coarsenInWords (requestedAxes d cell)
  let strides ← stridesInWords? 1 (axes.map (·.count))
  enterAllInWords? strides degree 0 boxes
    { axes := axes, cells := Array.replicate (totalInWords axes) {} }

/-- The cells under a box, visited in words; `none` if something leaves its word
or a position is not one of the grid. -/
def cellsAtInWords? (strides : List ℕ) (g : Grid α) (b : Box α) :
    Option (List (GridCell α)) := do
  let visited ← visitInWords? strides g.axes b
  visited.mapM (g.cells[·]?)

theorem foldlM_modify {β : Type} (f : β → β) {visited : List ℕ} {cells : Array β}
    (h : ∀ c ∈ visited, c < cells.size) :
    visited.foldlM (fun cells c => if c < cells.size then some (cells.modify c f) else none)
        cells =
      some (visited.foldl (fun cells c => cells.modify c f) cells) := by
  induction visited generalizing cells with
  | nil => rfl
  | cons c visited ih =>
      obtain ⟨hc, hvisited⟩ := List.forall_mem_cons.mp h
      rw [List.foldlM_cons, if_pos hc, Option.bind_eq_bind, Option.bind_some]
      exact ih (by simpa only [Array.size_modify] using hvisited)

theorem isSome_cells_iff (g : Grid α) (c : ℕ) :
    g.cells[c]?.isSome = true ↔ c < g.cells.size := by
  simp

theorem size_cells_enter (degree : Degree) (g : Grid α) (ix : ℕ) (b : Box α) :
    (g.enter degree ix b).cells.size = g.cells.size := by
  apply eq_of_forall_lt_iff
  intro c
  rw [← isSome_cells_iff, ← isSome_cells_iff, getElem?_cells_enter, Option.isSome_map]

theorem cellCount_build (d : Domain α) (degree : Degree) (boxes : List (Box α))
    (cell : List ℕ) :
    (build d degree boxes cell).cellCount = total (build d degree boxes cell).axes := by
  apply eq_of_forall_lt_iff
  intro c
  rw [← isSome_cells_build, isSome_cells_iff, cellCount]

theorem enterAllInWords?_eq {axes : List GridAxis} (haxes : total axes ≤ maxCells)
    (degree : Degree) (start : ℕ) (boxes : List (Box α)) {g : Grid α}
    (hg : g.axes = axes) (hsize : g.cells.size = total axes) :
    enterAllInWords? (strides 1 (axes.map (·.count))) degree start boxes g =
      some (enterAll degree start boxes g) := by
  induction boxes generalizing start g with
  | nil => rfl
  | cons b boxes ih =>
      have hvisited : ∀ c ∈ cellsUnder g.axes b, c < g.cells.size := by
        intro c hc
        rw [hsize, ← hg]
        exact lt_total_of_mem_cellsUnder hc
      have henter : enterInWords? (strides 1 (axes.map (·.count))) degree g start b =
          some (g.enter degree start b) := by
        rw [enterInWords?, hg, visitInWords?_eq haxes, Option.bind_eq_bind, Option.bind_some,
          ← hg, foldlM_modify _ hvisited]
        rfl
      rw [enterAllInWords?, henter, enterAll]
      exact ih (start + 1) hg (by rw [size_cells_enter, hsize])

theorem buildInWords?_eq (d : Domain α) (degree : Degree) (boxes : List (Box α))
    (cell : List ℕ) :
    buildInWords? d degree boxes cell = some (build d degree boxes cell) := by
  have hfew := total_coarsen_le (requestedAxes d cell)
  have hlimit : maxCells ≤ maxCount := by decide
  rw [buildInWords?, coarsenInWords_eq, totalInWords_eq,
    Nat.min_eq_left (Nat.le_trans hfew hlimit)]
  simp only [stridesInWords?_eq (counts_pos _) (prod_counts_lt hfew), Option.bind_eq_bind,
    Option.bind_some]
  exact enterAllInWords?_eq hfew degree 0 boxes rfl Array.size_replicate

theorem total_axes_build_le (d : Domain α) (degree : Degree) (boxes : List (Box α))
    (cell : List ℕ) : total (build d degree boxes cell).axes ≤ maxCells := by
  rw [axes_build]
  exact total_coarsen_le _

theorem cellsAtInWords?_build (d : Domain α) (degree : Degree) (boxes : List (Box α))
    (cell : List ℕ) (b : Box α) :
    cellsAtInWords? (strides 1 ((build d degree boxes cell).axes.map (·.count)))
        (build d degree boxes cell) b =
      some ((build d degree boxes cell).cellsAt b) := by
  rw [cellsAtInWords?, visitInWords?_eq (total_axes_build_le d degree boxes cell),
    Option.bind_eq_bind, Option.bind_some]
  have hcell : ∀ c ∈ cellsUnder (build d degree boxes cell).axes b,
      (build d degree boxes cell).cells[c]? =
        some ((build d degree boxes cell).cells[c]?.getD {}) := by
    intro c hc
    have hsome := (isSome_cells_build d degree boxes cell c).mpr
      (lt_total_of_mem_cellsUnder hc)
    obtain ⟨content, hcontent⟩ := Option.isSome_iff_exists.mp hsome
    rw [hcontent, Option.getD_some]
  rw [mapM_eq_some_map hcell, cellsAt, List.filterMap_congr hcell]
  exact congrArg some (congrFun List.filterMap_eq_map _).symm

/-- A grid stays bounded and in range, whatever cell widths are asked for and
wherever boxes and queries lie.  Building it in words gives the grid: no stride, sum
or coordinate leaves its word and each position is one of the grid.  It has at most
`maxCells` cells.  The cell width of each variable is the one asked for, a missing
or zero one counting as one, doubled some number of times as far as a word holds it,
and exactly the one asked for if these make few enough cells.  The cells under any
box are visited in words as well, all of them are cells of the grid, and each cell
of the ranges is visited once. -/
theorem build_stays_bounded (d : Domain α) (degree : Degree) (boxes : List (Box α))
    (cell : List ℕ) :
    ∃ g, g = build d degree boxes cell ∧ buildInWords? d degree boxes cell = some g ∧
      g.cellCount ≤ maxCells ∧ g.cellWidths.length = d.size ∧
      (∀ k < d.size, ∃ n, g.cellWidths[k]? =
        some (GridAxis.doubledWidth^[n] (max (cell[k]?.getD 1) 1))) ∧
      (total (requestedAxes d cell) ≤ maxCells → g.axes = requestedAxes d cell) ∧
      (∀ a ∈ g.axes, 0 < a.cell) ∧
      ∃ strides, stridesInWords? 1 (g.axes.map (·.count)) = some strides ∧
        ∀ b : Box α,
          visitInWords? strides g.axes b = some (cellsUnder g.axes b) ∧
          cellsAtInWords? strides g b = some (g.cellsAt b) ∧
          (∀ c ∈ cellsUnder g.axes b, c < g.cellCount) ∧
          ∀ ranges, cellRanges? g.axes b = some ranges →
            VisitsOnce (g.axes.map (·.count)) ranges (cellsUnder g.axes b) := by
  have hfew := total_axes_build_le d degree boxes cell
  have hcount := cellCount_build d degree boxes cell
  have haxes := axes_build d degree boxes cell
  refine ⟨_, rfl, buildInWords?_eq d degree boxes cell, ?_, ?_, ?_, ?_, ?_, _,
    stridesInWords?_eq (counts_pos _) (prod_counts_lt hfew), ?_⟩
  · rwa [hcount]
  · rw [cellWidths, List.length_map, length_axes_build]
  · intro k hk
    rw [cellWidths, haxes]
    exact cell_coarsen_requestedAxes cell hk
  · intro hfits
    rw [haxes, coarsen_of_total_le hfits]
  · intro a ha
    rw [haxes] at ha
    exact cell_pos_of_mem_coarsen ha
  · intro b
    refine ⟨visitInWords?_eq hfew b, cellsAtInWords?_build d degree boxes cell b, ?_, ?_⟩
    · intro c hc
      rw [hcount]
      exact lt_total_of_mem_cellsUnder hc
    · intro ranges hranges
      rw [cellsUnder, hranges]
      exact visitsOnce_positions (forall₂_onAxis hranges)

end Grid

end IntervalProgramming
