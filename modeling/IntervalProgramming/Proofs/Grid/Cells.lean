import Mathlib.Algebra.BigOperators.Group.List.Basic
import IntervalProgramming.Proofs.Box.Membership
import IntervalProgramming.Map.Grid

/-!
# The cells under a box

Every index tuple belongs to one cell of a grid, indices beyond the domain
counting as in the last cell of their axis.  The cells under a box are found
from its corners alone, yet they hold the cell of each tuple of the box.  So
two boxes that share a tuple share a cell, and its position is in range.
-/

namespace IntervalProgramming

variable {α : Type} [Scalar α]

theorem Tuple.mem_firstFastest {β : Type} {axes : List (List β)} {tuple : List β} :
    tuple ∈ firstFastest axes ↔
      List.Forall₂ (fun axis x => x ∈ axis) axes tuple := by
  induction axes generalizing tuple with
  | nil => simp [firstFastest]
  | cons axis axes ih =>
      simp only [firstFastest, List.mem_flatMap, List.mem_map]
      constructor
      · rintro ⟨rest, hrest, x, hx, rfl⟩
        exact List.Forall₂.cons hx (ih.mp hrest)
      · rintro (_ | ⟨hx, hrest⟩)
        exact ⟨_, ih.mpr hrest, _, hx, rfl⟩

namespace GridAxis

theorem count_pos (a : GridAxis) : 0 < a.count :=
  Nat.lt_of_lt_of_le Nat.zero_lt_one (Nat.le_max_right _ _)

/-- The cell that an index belongs to. -/
def cellOf (a : GridAxis) (j : ℕ) : ℕ :=
  min (j / a.cell) (a.count - 1)

theorem cellOf_lt_count (a : GridAxis) (j : ℕ) : a.cellOf j < a.count := by
  have h := a.count_pos
  simp only [cellOf]
  omega

theorem cellOf_mono (a : GridAxis) {j k : ℕ} (h : j ≤ k) :
    a.cellOf j ≤ a.cellOf k := by
  have hdiv := Nat.div_le_div_right (c := a.cell) h
  simp only [cellOf]
  omega

end GridAxis

namespace Grid

/-! ## The number of axes and of cells -/

theorem length_doubleFirst (n : ℕ) (axes : List GridAxis) :
    (doubleFirst n axes).length = axes.length := by
  induction axes with
  | nil => rfl
  | cons a axes ih =>
      simp only [doubleFirst]
      split
      · rfl
      · simp only [List.length_cons, ih]

theorem length_coarsen (axes : List GridAxis) :
    (coarsen axes).length = axes.length := by
  fun_induction coarsen axes with
  | case1 axes _ ih => rw [ih, length_doubleFirst]
  | case2 axes _ => rfl

theorem length_requestedAxes (d : Domain α) (cell : List ℕ) :
    (requestedAxes d cell).length = d.size := by
  simp [requestedAxes, Domain.size]

theorem total_eq_prod (axes : List GridAxis) :
    total axes = (axes.map (·.count)).prod :=
  (List.prod_eq_foldl).symm

theorem flatten_lt_prod {counts coords : List ℕ}
    (h : List.Forall₂ (· < ·) coords counts) :
    flatten counts coords < counts.prod := by
  induction h with
  | nil => simp [flatten]
  | @cons c n coords counts hc _ ih =>
      have htail : n * (flatten counts coords + 1) ≤ n * counts.prod :=
        Nat.mul_le_mul_left n ih
      rw [Nat.mul_succ] at htail
      simp only [flatten, List.prod_cons]
      omega

/-! ## The cell of a tuple -/

/-- The coordinates of the cell that a tuple belongs to. -/
def coordsOf (axes : List GridAxis) (tuple : List ℕ) : List ℕ :=
  List.zipWith GridAxis.cellOf axes tuple

/-- The position of the cell that a tuple belongs to. -/
def cellAt (axes : List GridAxis) (tuple : List ℕ) : ℕ :=
  flatten (axes.map (·.count)) (coordsOf axes tuple)

theorem forall₂_coordsOf_lt {axes : List GridAxis} {tuple : List ℕ}
    (h : tuple.length = axes.length) :
    List.Forall₂ (· < ·) (coordsOf axes tuple) (axes.map (·.count)) := by
  induction axes generalizing tuple with
  | nil => simp [coordsOf]
  | cons a axes ih =>
      cases tuple with
      | nil => simp at h
      | cons j tuple =>
          exact List.Forall₂.cons (a.cellOf_lt_count j) (ih (Nat.succ.inj h))

theorem cellAt_lt_total {axes : List GridAxis} {tuple : List ℕ}
    (h : tuple.length = axes.length) : cellAt axes tuple < total axes := by
  rw [total_eq_prod]
  exact flatten_lt_prod (forall₂_coordsOf_lt h)

/-- The coordinates in a product of ranges, the first one running fastest. -/
def coordsIn (ranges : List (ℕ × ℕ)) : List (List ℕ) :=
  Tuple.firstFastest
    (ranges.map fun range => List.range' range.1 (range.2 + 1 - range.1))

theorem mem_coordsIn {ranges : List (ℕ × ℕ)} {coords : List ℕ} :
    coords ∈ coordsIn ranges ↔
      List.Forall₂ (fun range x => range.1 ≤ x ∧ x ≤ range.2) ranges coords := by
  have hiff : ∀ (range : ℕ × ℕ) (x : ℕ),
      x ∈ List.range' range.1 (range.2 + 1 - range.1) ↔
        range.1 ≤ x ∧ x ≤ range.2 := by
    intro range x
    rw [List.mem_range'_1]
    omega
  simp only [coordsIn, Tuple.mem_firstFastest, List.forall₂_map_left_iff, hiff]

theorem positions_eq (counts : List ℕ) (ranges : List (ℕ × ℕ)) :
    positions counts ranges = (coordsIn ranges).map (flatten counts) :=
  rfl

theorem mem_positions {counts : List ℕ} {ranges : List (ℕ × ℕ)} {c : ℕ} :
    c ∈ positions counts ranges ↔
      ∃ coords, List.Forall₂ (fun range x => range.1 ≤ x ∧ x ≤ range.2)
        ranges coords ∧ flatten counts coords = c := by
  simp only [positions_eq, List.mem_map, mem_coordsIn]

/-- The coordinates of a tuple lie in the cell ranges of extents that hold
it. -/
theorem forall₂_coordsOf_cellRange {axes : List GridAxis} {es : List Extent}
    {tuple : List ℕ} (h : List.Forall₂ Extent.Has es tuple)
    (hlen : es.length = axes.length) :
    List.Forall₂ (fun range x => range.1 ≤ x ∧ x ≤ range.2)
      (List.zipWith (fun a e => a.cellRange e.toInterval) axes es)
      (coordsOf axes tuple) := by
  induction h generalizing axes with
  | nil => simp [coordsOf]
  | cons he _ ih =>
      cases axes with
      | nil => simp at hlen
      | cons a axes =>
          refine List.Forall₂.cons ?_ (ih (Nat.succ.inj hlen))
          exact ⟨a.cellOf_mono he.1, a.cellOf_mono he.2⟩

/-- The cell of every tuple of a box is among the cells under the box. -/
theorem cellAt_mem_cellsUnder {axes : List GridAxis} {b : Box α}
    {tuple : List ℕ} (hb : b.spansFirst axes.length = true)
    (h : b.contains tuple = true) : cellAt axes tuple ∈ cellsUnder axes b := by
  simp only [cellsUnder, cellRanges?, if_pos hb, mem_positions]
  refine ⟨coordsOf axes tuple, ?_, rfl⟩
  exact forall₂_coordsOf_cellRange (Box.contains_eq_true_iff.mp h)
    (Box.length_of_spansFirst hb)

end Grid

end IntervalProgramming
