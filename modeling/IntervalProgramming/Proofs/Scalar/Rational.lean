import Mathlib.Algebra.Order.Field.Rat
import Mathlib.Tactic.Linarith
import Mathlib.Tactic.Ring
import IntervalProgramming.Scalar.Rational

/-!
# Exact arithmetic

Over the rational numbers the operations of the scalar class are the usual
ones, and a bound that may be absent is described by the numbers it covers.
-/

namespace IntervalProgramming.Scalar

theorem max_eq (x y : ℚ) : Scalar.max x y = x ⊔ y := by
  simp only [Scalar.max, beq_self_eq_true, if_true]
  split
  · rename_i h
    exact (max_eq_right h.le).symm
  · rename_i h
    exact (max_eq_left (not_lt.mp h)).symm

theorem min_eq (x y : ℚ) : Scalar.min x y = x ⊓ y := by
  simp only [Scalar.min, beq_self_eq_true, if_true]
  split
  · rename_i h
    exact (min_eq_right h.le).symm
  · rename_i h
    exact (min_eq_left (not_lt.mp h)).symm

theorem abs_eq (x : ℚ) : Scalar.abs x = |x| := by
  change (if x < 0 then -x else x) = |x|
  split
  · rename_i h
    exact (abs_of_neg h).symm
  · rename_i h
    exact (abs_of_nonneg (not_lt.mp h)).symm

theorem largest?_map {g : ℚ → ℚ} (hg : Monotone g) (xs : List ℚ) :
    largest? (xs.map g) = (largest? xs).map g := by
  cases xs with
  | nil => rfl
  | cons x xs =>
      rw [List.map_cons, largest?, largest?, List.foldl_map, Option.map_some]
      refine congrArg some (List.foldl_hom g fun y z => ?_)
      rw [max_eq, max_eq, hg.map_max]

theorem smallest?_map {g : ℚ → ℚ} (hg : Monotone g) (xs : List ℚ) :
    smallest? (xs.map g) = (smallest? xs).map g := by
  cases xs with
  | nil => rfl
  | cons x xs =>
      rw [List.map_cons, smallest?, smallest?, List.foldl_map, Option.map_some]
      refine congrArg some (List.foldl_hom g fun y z => ?_)
      rw [min_eq, min_eq, hg.map_min]

/-- Whether a bound lies at or above a scalar.  The bound of nothing lies
above none. -/
def Covers (bound : Option ℚ) (x : ℚ) : Prop :=
  ∃ y, bound = some y ∧ x ≤ y

theorem covers_some {x y : ℚ} : Covers (some y) x ↔ x ≤ y := by
  simp [Covers]

theorem not_covers_none {x : ℚ} : ¬ Covers none x := by
  simp [Covers]

theorem covers_raise {bound : Option ℚ} {x z : ℚ} :
    Covers (raise bound x) z ↔ Covers bound z ∨ z ≤ x := by
  cases bound with
  | none => simp [raise, Covers]
  | some b => simp [raise, Covers, max_eq]

theorem covers_join {b c : Option ℚ} {z : ℚ} :
    Covers (join b c) z ↔ Covers b z ∨ Covers c z := by
  cases c with
  | none => simp [join, not_covers_none]
  | some x => rw [join, covers_raise, covers_some]

theorem covers_foldl_raise {xs : List ℚ} {bound : Option ℚ} {z : ℚ} :
    Covers (xs.foldl raise bound) z ↔ Covers bound z ∨ ∃ x ∈ xs, z ≤ x := by
  induction xs generalizing bound with
  | nil => simp
  | cons x xs ih =>
      rw [List.foldl_cons, ih, covers_raise, or_assoc]
      simp only [List.mem_cons, exists_eq_or_imp]

theorem covers_upperBound {xs : List ℚ} {z : ℚ} :
    Covers (upperBound xs) z ↔ ∃ x ∈ xs, z ≤ x := by
  rw [upperBound, covers_foldl_raise]
  simp [not_covers_none]

theorem Covers.mono {bound : Option ℚ} {x y : ℚ} (h : Covers bound y)
    (hxy : x ≤ y) : Covers bound x := by
  obtain ⟨b, hb, hyb⟩ := h
  exact ⟨b, hb, hxy.trans hyb⟩

end IntervalProgramming.Scalar
