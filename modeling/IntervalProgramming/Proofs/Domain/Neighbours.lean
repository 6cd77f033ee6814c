import Mathlib.Data.Nat.ModEq
import Mathlib.Data.Set.Function
import IntervalProgramming.Proofs.Domain.Rounding

/-!
# Neighbours on the grid

Every way of rounding gives a grid value its own index, so the neighbours of a
grid value are those of its index.  If the range wraps around, the step up adds
one to the index modulo the number of points and the step down takes it away
again: the grid is a cycle, which the steps up go round in as many steps as it
has points.  If it does not, the steps up end at the high end.  The step up takes
the successor of an index, which is an index word as the number of points is one.
-/

namespace IntervalProgramming.Domain

variable {d : Domain ℚ} {k j : ℕ} {v : Variable ℚ}

/-- The grid values of the variable at position `k`. -/
def gridValues (d : Domain ℚ) (k : ℕ) : Set ℚ :=
  {y | ∃ j, d.valueAt? k j = some y}

theorem gridValues_eq (hv : d.var? k = some v) :
    d.gridValues k = v.value '' Set.Iio v.count := by
  ext y
  exact exists_congr fun _ => valueAt?_eq_some_iff hv

theorem injOn_value (hspread : v.low < v.high) (s : Set ℕ) : Set.InjOn v.value s :=
  (ValueRange.strictMono_value hspread).injective.injOn

/-! ## The step from a grid value -/

theorem nextHigher_value (hv : d.var? k = some v) (hspread : v.low < v.high)
    (hj : j < v.count) (snap : Snap) (wrap : Bool) :
    d.nextHigher k (v.value j) snap wrap =
      if j + 1 < v.count then v.value (j + 1)
      else if wrap then v.low else v.value j := by
  have hindex : v.discretize (v.value j) snap = j :=
    ValueRange.discretize_value hspread (ValueRange.lt_count_iff.mp hj) snap
  rw [nextHigher, hv]
  simp only [hindex]
  by_cases hlast : j + 1 < v.count
  · rw [if_neg (Nat.not_le.mpr hlast), if_pos hlast,
      (valueAt?_eq_some_iff hv).mpr ⟨hlast, rfl⟩, Option.getD_some]
  · rw [if_pos (Nat.not_lt.mp hlast), if_neg hlast]

theorem nextLower_value (hv : d.var? k = some v) (hspread : v.low < v.high)
    (hj : j < v.count) (snap : Snap) (wrap : Bool) :
    d.nextLower k (v.value j) snap wrap =
      if j = 0 then (if wrap then v.high else v.value j) else v.value (j - 1) := by
  have hindex : v.discretize (v.value j) snap = j :=
    ValueRange.discretize_value hspread (ValueRange.lt_count_iff.mp hj) snap
  rw [nextLower, hv]
  simp only [hindex]
  cases j with
  | zero => rfl
  | succ i =>
      have hi : d.valueAt? k i = some (v.value i) :=
        (valueAt?_eq_some_iff hv).mpr ⟨Nat.lt_of_succ_lt hj, rfl⟩
      rw [if_neg (Nat.succ_ne_zero i), Nat.add_sub_cancel]
      simp only [hi, Option.getD_some]

/-! ## In index words -/

theorem nextLowerInWords?_eq (d : Domain ℚ) (k : ℕ) (x : ℚ) (snap : Snap) (wrap : Bool) :
    d.nextLowerInWords? k x snap wrap = some (d.nextLower k x snap wrap) := by
  unfold nextLowerInWords? nextLower
  cases d.var? k with
  | none => rfl
  | some v =>
      simp only [ValueRange.discretizeInWords?_eq, Option.bind_eq_bind, Option.bind_some]
      cases v.discretize x snap <;> rfl

theorem nextHigherInWords?_eq (d : Domain ℚ) (k : ℕ) (x : ℚ) (snap : Snap) (wrap : Bool) :
    d.nextHigherInWords? k x snap wrap = some (d.nextHigher k x snap wrap) := by
  unfold nextHigherInWords? nextHigher
  cases d.var? k with
  | none => rfl
  | some v =>
      have hindex := (v.discretize_lt_count x snap).trans_le v.count_le_maxIndex
      simp only [ValueRange.discretizeInWords?_eq, Option.bind_eq_bind, Option.bind_some,
        indexAfter?_of_lt hindex]
      rfl

/-! ## Around the grid -/

theorem nextHigher_wrap (hv : d.var? k = some v) (hspread : v.low < v.high)
    (hj : j < v.count) (snap : Snap) :
    d.nextHigher k (v.value j) snap true = v.value ((j + 1) % v.count) := by
  rw [nextHigher_value hv hspread hj]
  by_cases hlast : j + 1 < v.count
  · rw [if_pos hlast, Nat.mod_eq_of_lt hlast]
  · have hend : j + 1 = v.count := by omega
    rw [if_neg hlast, if_pos rfl, hend, Nat.mod_self, v.value_zero]

theorem nextLower_wrap (hv : d.var? k = some v) (hspread : v.low < v.high)
    (hj : j < v.count) (snap : Snap) :
    d.nextLower k (v.value j) snap true = v.value ((j + v.lastIndex) % v.count) := by
  have hcount := v.lastIndex_add_one
  rw [nextLower_value hv hspread hj]
  by_cases hzero : j = 0
  · have hlast : v.lastIndex < v.count := by omega
    rw [if_pos hzero, if_pos rfl, hzero, Nat.zero_add, Nat.mod_eq_of_lt hlast,
      ValueRange.value_lastIndex hspread]
  · have hback : j + v.lastIndex = (j - 1) + v.count := by omega
    rw [if_neg hzero, hback, Nat.add_mod_right, Nat.mod_eq_of_lt (by omega)]

theorem nextLower_nextHigher (hv : d.var? k = some v) (hspread : v.low < v.high)
    (hj : j < v.count) (snap : Snap) :
    d.nextLower k (d.nextHigher k (v.value j) snap true) snap true = v.value j := by
  have hcount := v.lastIndex_add_one
  have hround : j + 1 + v.lastIndex = j + v.count := by omega
  rw [nextHigher_wrap hv hspread hj, nextLower_wrap hv hspread (Nat.mod_lt _ v.count_pos),
    Nat.mod_add_mod, hround, Nat.add_mod_right, Nat.mod_eq_of_lt hj]

theorem nextHigher_nextLower (hv : d.var? k = some v) (hspread : v.low < v.high)
    (hj : j < v.count) (snap : Snap) :
    d.nextHigher k (d.nextLower k (v.value j) snap true) snap true = v.value j := by
  have hcount := v.lastIndex_add_one
  have hround : j + v.lastIndex + 1 = j + v.count := by omega
  rw [nextLower_wrap hv hspread hj, nextHigher_wrap hv hspread (Nat.mod_lt _ v.count_pos),
    Nat.mod_add_mod, hround, Nat.add_mod_right, Nat.mod_eq_of_lt hj]

/-- From index `j` the steps up lead to the index that lies as many further on. -/
theorem iterate_nextHigher (hv : d.var? k = some v) (hspread : v.low < v.high)
    (hj : j < v.count) (snap : Snap) (n : ℕ) :
    (fun y => d.nextHigher k y snap true)^[n] (v.value j) =
      v.value ((j + n) % v.count) := by
  induction n with
  | zero => rw [Function.iterate_zero_apply, Nat.add_zero, Nat.mod_eq_of_lt hj]
  | succ n ih =>
      rw [Function.iterate_succ_apply', ih,
        nextHigher_wrap hv hspread (Nat.mod_lt _ v.count_pos), Nat.mod_add_mod,
        Nat.add_assoc]

theorem bijOn_add_mod {c : ℕ} (hj : j < c) :
    Set.BijOn (fun n => (j + n) % c) (Set.Iio c) (Set.Iio c) := by
  refine ⟨?_, ?_, ?_⟩
  · intro n _
    exact Nat.mod_lt _ (Nat.zero_lt_of_lt hj)
  · intro n hn m hm heq
    exact (Nat.ModEq.add_left_cancel' j heq).eq_of_lt_of_lt hn hm
  · intro i hi
    refine ⟨(i + (c - j)) % c, Nat.mod_lt _ (Nat.zero_lt_of_lt hj), ?_⟩
    have hround : j + (i + (c - j)) = i + c := by omega
    simp only [Nat.add_mod_mod, hround, Nat.add_mod_right]
    exact Nat.mod_eq_of_lt hi

/-- From index `j` the first steps up, as many as there are points, meet every
grid value once. -/
theorem bijOn_iterate_nextHigher (hv : d.var? k = some v) (hspread : v.low < v.high)
    (hj : j < v.count) (snap : Snap) :
    Set.BijOn (fun n => (fun y => d.nextHigher k y snap true)^[n] (v.value j))
      (Set.Iio v.count) (d.gridValues k) := by
  rw [gridValues_eq hv]
  refine ((injOn_value hspread _).bijOn_image.comp (bijOn_add_mod hj)).congr ?_
  intro n _
  exact (iterate_nextHigher hv hspread hj snap n).symm

/-- With wrapping, the grid values of a variable with two different ends are a
cycle: the steps up and down lead from grid values to grid values and undo each
other, and the steps up from a grid value meet every grid value exactly once
before they are back where they began, after as many steps as there are points.
Without wrapping, a step up leads to the next grid value, and from the last one,
the high end, to itself. -/
theorem neighbours_cycle (hv : d.var? k = some v) (hspread : v.low < v.high)
    (snap : Snap) :
    let up := fun y => d.nextHigher k y snap true
    let down := fun y => d.nextLower k y snap true
    Set.MapsTo up (d.gridValues k) (d.gridValues k) ∧
      Set.MapsTo down (d.gridValues k) (d.gridValues k) ∧
      Set.InvOn down up (d.gridValues k) (d.gridValues k) ∧
      (∀ y ∈ d.gridValues k,
        Set.BijOn (fun n => up^[n] y) (Set.Iio (d.pointCount k)) (d.gridValues k) ∧
          up^[d.pointCount k] y = y) ∧
      (∀ j y z, d.valueAt? k j = some y → d.valueAt? k (j + 1) = some z →
        d.nextHigher k y snap false = z) ∧
      d.valueAt? k (d.pointCount k - 1) = some v.high ∧
      d.nextHigher k v.high snap false = v.high := by
  intro up down
  have hcount := v.lastIndex_add_one
  have hmod : ∀ n, n % v.count < v.count := fun n => Nat.mod_lt n v.count_pos
  have hlast : v.lastIndex < v.count := by omega
  have hgrid := gridValues_eq hv
  rw [pointCount_eq hv]
  refine ⟨?_, ?_, ⟨?_, ?_⟩, ?_, ?_, ?_, ?_⟩
  · rw [hgrid]
    rintro _ ⟨j, hj, rfl⟩
    exact ⟨_, hmod (j + 1), (nextHigher_wrap hv hspread hj snap).symm⟩
  · rw [hgrid]
    rintro _ ⟨j, hj, rfl⟩
    exact ⟨_, hmod (j + v.lastIndex), (nextLower_wrap hv hspread hj snap).symm⟩
  · rw [hgrid]
    rintro _ ⟨j, hj, rfl⟩
    exact nextLower_nextHigher hv hspread hj snap
  · rw [hgrid]
    rintro _ ⟨j, hj, rfl⟩
    exact nextHigher_nextLower hv hspread hj snap
  · intro y hy
    rw [hgrid] at hy
    obtain ⟨j, hj, rfl⟩ := hy
    refine ⟨bijOn_iterate_nextHigher hv hspread hj snap, ?_⟩
    rw [iterate_nextHigher hv hspread hj, Nat.add_mod_right, Nat.mod_eq_of_lt hj]
  · intro j y z hy hz
    obtain ⟨hj, rfl⟩ := (valueAt?_eq_some_iff hv).mp hy
    obtain ⟨hnext, rfl⟩ := (valueAt?_eq_some_iff hv).mp hz
    rw [nextHigher_value hv hspread hj, if_pos hnext]
  · exact (valueAt?_eq_some_iff hv).mpr ⟨hlast, ValueRange.value_lastIndex hspread⟩
  · have hstay := nextHigher_value hv hspread hlast snap false
    rw [if_neg (by omega)] at hstay
    rwa [ValueRange.value_lastIndex hspread] at hstay

/-- From one third of the way up, four steps go once round the four grid values
from 3 to 4. -/
theorem neighbours_cycle_gauge :
    10 / 3 ∈ gauge.gridValues 0 ∧
      (fun y => gauge.nextHigher 0 y .nearest true)^[4] (10 / 3) = 10 / 3 ∧
      gauge.nextLower 0 (gauge.nextHigher 0 (10 / 3) .nearest true) .nearest true =
        10 / 3 := by
  obtain ⟨-, -, hinverse, hround, -⟩ :=
    neighbours_cycle (d := gauge) (k := 0) rfl (by decide) .nearest
  have hgrid : (10 / 3 : ℚ) ∈ gauge.gridValues 0 := ⟨1, by decide +kernel⟩
  exact ⟨hgrid, (hround _ hgrid).2, hinverse.1 hgrid⟩

end IntervalProgramming.Domain
