import Mathlib.Data.Nat.Init
import Mathlib.Logic.Function.Iterate
import IntervalProgramming.Proofs.Grid.Cells

/-!
# Coarsening a grid

The cells of a grid are widened until there are few enough of them.  Each round
doubles the cell width of one axis, as far as a word holds it, so in the end the
width of each axis is the one asked for, doubled some number of times.  Axes that
make few enough cells from the start stay as they are.  The number of cells is
counted with saturation in a count word, and the rounds are the same as with the
exact number.
-/

namespace IntervalProgramming

variable {α : Type} [Scalar α]

namespace GridAxis

/-- A cell width twice as large, as far as an index word holds it. -/
def doubledWidth (w : ℕ) : ℕ :=
  min (2 * w) maxIndex

theorem cell_iterate_doubled (a : GridAxis) (n : ℕ) :
    (doubled^[n] a).cell = doubledWidth^[n] a.cell :=
  Function.Semiconj.iterate_right (f := GridAxis.cell) (fun _ => rfl) n a

theorem doubledWidth_pos {w : ℕ} (h : 0 < w) : 0 < doubledWidth w := by
  rw [doubledWidth, maxIndex_eq]
  omega

theorem iterate_doubledWidth_pos {w : ℕ} (h : 0 < w) (n : ℕ) : 0 < doubledWidth^[n] w :=
  Function.Iterate.rec (fun w => 0 < w) h (fun _ => doubledWidth_pos) n

theorem count_le_maxIndex (a : GridAxis) : a.count ≤ maxIndex := by
  have hpoints := a.points.toNat_lt
  have hle : ceilDiv a.points.toNat a.cell ≤ a.points.toNat := by
    rw [ceilDiv]
    rcases Nat.eq_zero_or_pos a.cell with hzero | hpos
    · rw [hzero, Nat.div_zero]
      exact Nat.zero_le _
    · have hmul : a.points.toNat ≤ a.points.toNat * a.cell := Nat.le_mul_of_pos_right _ hpos
      apply Nat.le_of_lt_succ
      rw [Nat.div_lt_iff_lt_mul hpos, Nat.succ_mul]
      omega
  rw [count, maxIndex_eq]
  omega

end GridAxis

namespace Grid

/-! ## What coarsening does -/

/-- Each axis is doubled some number of times, once or not at all. -/
theorem getElem?_doubleFirst {axes : List GridAxis} {k : ℕ} {a : GridAxis}
    (h : axes[k]? = some a) (count : ℕ) :
    ∃ n, (doubleFirst count axes)[k]? = some (GridAxis.doubled^[n] a) := by
  induction axes generalizing k with
  | nil => cases h
  | cons first axes ih =>
      rw [doubleFirst]
      split
      · cases k with
        | zero =>
            obtain rfl := Option.some.inj h
            exact ⟨1, rfl⟩
        | succ k => exact ⟨0, h⟩
      · cases k with
        | zero => exact ⟨0, h⟩
        | succ k => exact ih h

theorem getElem?_coarsen {axes : List GridAxis} {k : ℕ} {a : GridAxis}
    (h : axes[k]? = some a) :
    ∃ n, (coarsen axes)[k]? = some (GridAxis.doubled^[n] a) := by
  fun_induction coarsen axes generalizing a with
  | case1 axes hmany ih =>
      obtain ⟨n, hn⟩ := getElem?_doubleFirst h (widest axes)
      obtain ⟨m, hm⟩ := ih hn
      exact ⟨m + n, by rw [hm, Function.iterate_add_apply]⟩
  | case2 axes hfew => exact ⟨0, h⟩

theorem total_coarsen_le (axes : List GridAxis) : total (coarsen axes) ≤ maxCells := by
  fun_induction coarsen axes with
  | case1 axes hmany ih => exact ih
  | case2 axes hfew => exact Nat.le_of_not_lt hfew

theorem coarsen_of_lt_total {axes : List GridAxis} (h : maxCells < total axes) :
    coarsen axes = coarsen (doubleFirst (widest axes) axes) := by
  conv_lhs => rw [coarsen, dif_pos h]

theorem coarsen_of_total_le {axes : List GridAxis} (h : total axes ≤ maxCells) :
    coarsen axes = axes := by
  rw [coarsen, dif_neg (Nat.not_lt.mpr h)]

theorem getElem?_requestedAxes {d : Domain α} (cell : List ℕ) {k : ℕ} (hk : k < d.size) :
    ∃ a, (requestedAxes d cell)[k]? = some a ∧ a.cell = max (cell[k]?.getD 1) 1 := by
  rw [requestedAxes, List.getElem?_mapIdx, List.getElem?_eq_getElem hk]
  exact ⟨_, rfl, rfl⟩

/-- Each cell width is the one asked for, a missing or zero one counting as one,
doubled some number of times. -/
theorem cell_coarsen_requestedAxes {d : Domain α} (cell : List ℕ) {k : ℕ}
    (hk : k < d.size) :
    ∃ n, ((coarsen (requestedAxes d cell)).map (·.cell))[k]? =
      some (GridAxis.doubledWidth^[n] (max (cell[k]?.getD 1) 1)) := by
  obtain ⟨a, ha, hcell⟩ := getElem?_requestedAxes cell hk
  obtain ⟨n, hn⟩ := getElem?_coarsen ha
  exact ⟨n, by rw [List.getElem?_map, hn, Option.map_some, GridAxis.cell_iterate_doubled, hcell]⟩

theorem cell_pos_of_mem_coarsen {d : Domain α} {cell : List ℕ} {a : GridAxis}
    (ha : a ∈ coarsen (requestedAxes d cell)) : 0 < a.cell := by
  obtain ⟨k, hk, rfl⟩ := List.mem_iff_getElem.mp ha
  have hsize : k < d.size := by rwa [length_coarsen, length_requestedAxes] at hk
  obtain ⟨n, hn⟩ := cell_coarsen_requestedAxes cell hsize
  rw [List.getElem?_map, List.getElem?_eq_getElem hk, Option.map_some] at hn
  rw [Option.some.inj hn]
  exact GridAxis.iterate_doubledWidth_pos (Nat.lt_of_lt_of_le Nat.zero_lt_one
    (Nat.le_max_right _ _)) n

/-! ## Coarsening in words -/

/-- The number of cells that axes make, as saturating products in a count word
give it. -/
def totalInWords (axes : List GridAxis) : ℕ :=
  (axes.map (·.count)).foldl (fun n count => min (n * count) maxCount) 1

theorem foldl_saturating {counts : List ℕ} (hpos : ∀ count ∈ counts, 0 < count) (n : ℕ) :
    counts.foldl (fun n count => min (n * count) maxCount) (min n maxCount) =
      min (counts.foldl (· * ·) n) maxCount := by
  induction counts generalizing n with
  | nil => rfl
  | cons count counts ih =>
      obtain ⟨hcount, hcounts⟩ := List.forall_mem_cons.mp hpos
      have hstep : min (min n maxCount * count) maxCount = min (n * count) maxCount := by
        have hle : maxCount ≤ maxCount * count := Nat.le_mul_of_pos_right _ hcount
        rw [← Nat.mul_min_mul_right, Nat.min_assoc, Nat.min_eq_right hle]
      rw [List.foldl_cons, List.foldl_cons, hstep, ih hcounts]

theorem counts_pos (axes : List GridAxis) : ∀ n ∈ axes.map (·.count), 0 < n := by
  rw [List.forall_mem_map]
  exact fun a _ => a.count_pos

theorem totalInWords_eq (axes : List GridAxis) :
    totalInWords axes = min (total axes) maxCount :=
  foldl_saturating (counts_pos axes) 1

/-- The number of cells exceeds the limit if and only if it does as counted. -/
theorem maxCells_lt_totalInWords_iff {axes : List GridAxis} :
    maxCells < totalInWords axes ↔ maxCells < total axes := by
  have hlimit : maxCells < maxCount := by decide
  rw [totalInWords_eq]
  omega

/-- The axes widened as long as there are too many cells, as counted in a count
word. -/
def coarsenInWords (axes : List GridAxis) : List GridAxis :=
  if _h : maxCells < totalInWords axes then coarsenInWords (doubleFirst (widest axes) axes)
  else axes
termination_by room axes
decreasing_by
  have hmany : 1 < total axes :=
    Nat.lt_trans (by decide) (maxCells_lt_totalInWords_iff.mp _h)
  obtain ⟨a, ha, hcount, hlt⟩ := exists_widest hmany
  exact room_doubleFirst_lt (hcount ▸ hlt) ⟨a, ha, hcount⟩

theorem coarsenInWords_eq (axes : List GridAxis) : coarsenInWords axes = coarsen axes := by
  fun_induction coarsenInWords axes with
  | case1 axes hmany ih =>
      rw [ih, coarsen_of_lt_total (maxCells_lt_totalInWords_iff.mp hmany)]
  | case2 axes hfew =>
      rw [maxCells_lt_totalInWords_iff] at hfew
      rw [coarsen_of_total_le (Nat.le_of_not_lt hfew)]

end Grid

end IntervalProgramming
