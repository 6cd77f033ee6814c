import Mathlib.Algebra.BigOperators.Fin
import Mathlib.Algebra.BigOperators.Ring.List
import Mathlib.Algebra.Order.BigOperators.Group.List
import IntervalProgramming.Fit.LeastSquares
import IntervalProgramming.Proofs.Scalar.Rational

/-!
# Exact sums

Over the rational numbers the sum of a list does not depend on how it is added
up, and the sum of the values of a function is linear in the function.  The
product of two lists is the sum of the products of their entries.
-/

namespace IntervalProgramming

/-! ## Sums over lists -/

/-- The sum of the values of a function along a list. -/
def sumOver {β : Type} (xs : List β) (f : β → ℚ) : ℚ :=
  (xs.map f).sum

section SumOver

variable {β : Type} {xs : List β} {f g : β → ℚ}

theorem sumOver_cons (x : β) (xs : List β) (f : β → ℚ) :
    sumOver (x :: xs) f = f x + sumOver xs f :=
  List.sum_cons

theorem sumOver_congr (h : ∀ x ∈ xs, f x = g x) : sumOver xs f = sumOver xs g :=
  congrArg List.sum (List.map_congr_left h)

theorem sumOver_eq_zero (h : ∀ x ∈ xs, f x = 0) : sumOver xs f = 0 :=
  List.sum_eq_zero (List.forall_mem_map.mpr h)

theorem sumOver_nonneg (h : ∀ x ∈ xs, 0 ≤ f x) : 0 ≤ sumOver xs f :=
  List.sum_nonneg (List.forall_mem_map.mpr h)

/-- A sum of squares that is not positive has no term but zero. -/
theorem eq_zero_of_sumOver_sq_le (h : sumOver xs (fun x => f x ^ 2) ≤ 0) {x : β}
    (hx : x ∈ xs) : f x = 0 := by
  have hterm : f x ^ 2 ≤ sumOver xs fun x => f x ^ 2 := by
    refine List.single_le_sum ?_ _ (List.mem_map_of_mem hx)
    exact List.forall_mem_map.mpr fun y _ => sq_nonneg (f y)
  exact pow_eq_zero_iff two_ne_zero |>.mp (le_antisymm (hterm.trans h) (sq_nonneg _))

theorem sumOver_add (xs : List β) (f g : β → ℚ) :
    sumOver xs (fun x => f x + g x) = sumOver xs f + sumOver xs g :=
  List.sum_map_add

theorem sumOver_mul_left (xs : List β) (c : ℚ) (f : β → ℚ) :
    sumOver xs (fun x => c * f x) = c * sumOver xs f :=
  List.sum_map_mul_left xs f c

theorem sumOver_const (xs : List β) (c : ℚ) :
    sumOver xs (fun _ => c) = xs.length * c := by
  rw [sumOver, List.map_const', List.sum_replicate, nsmul_eq_mul]

theorem sumOver_finsetSum {ι : Type} (xs : List β) (s : Finset ι) (f : ι → β → ℚ) :
    sumOver xs (fun x => ∑ i ∈ s, f i x) = ∑ i ∈ s, sumOver xs (f i) := by
  induction xs with
  | nil => exact (Finset.sum_const_zero (s := s)).symm
  | cons x xs ih => simp only [sumOver_cons, ih, Finset.sum_add_distrib]

theorem sumOver_ofFn {n : ℕ} (x : Fin n → β) (f : β → ℚ) :
    sumOver (List.ofFn x) f = ∑ k, f (x k) := by
  rw [sumOver, List.map_ofFn, List.sum_ofFn]
  rfl

theorem cast_length_ne_zero (hne : xs ≠ []) : (xs.length : ℚ) ≠ 0 :=
  Nat.cast_ne_zero.mpr (List.length_eq_zero_iff.not.mpr hne)

end SumOver

/-- Subtracting one term after the other subtracts their sum. -/
theorem foldl_sub_eq {β : Type} (xs : List β) (f : β → ℚ) (start : ℚ) :
    xs.foldl (fun acc x => acc - f x) start = start - sumOver xs f := by
  induction xs generalizing start with
  | nil => exact (sub_zero start).symm
  | cons x xs ih =>
      rw [List.foldl_cons, ih, sumOver_cons]
      ring

/-! ## Sums and products of lists -/

namespace Scalar

theorem sum_eq (xs : List ℚ) : Scalar.sum xs = xs.sum := by
  cases xs with
  | nil => exact Nat.cast_zero
  | cons x xs => rw [Scalar.sum, List.sum_eq_foldl, List.foldl_cons, zero_add]

theorem dot_map {β : Type} (xs : List β) (x y : β → ℚ) :
    dot (xs.map x) (xs.map y) = sumOver xs fun t => x t * y t := by
  rw [dot, sum_eq, List.zipWith_map, List.zipWith_self, sumOver]

theorem dot_eq (xs ys : List ℚ) : dot xs ys = (List.zipWith (· * ·) xs ys).sum :=
  sum_eq _

theorem dot_nil_left (ys : List ℚ) : dot [] ys = 0 := by
  rw [dot_eq, List.zipWith_nil_left, List.sum_nil]

theorem dot_nil_right (xs : List ℚ) : dot xs [] = 0 := by
  rw [dot_eq, List.zipWith_nil_right, List.sum_nil]

theorem dot_cons (x y : ℚ) (xs ys : List ℚ) : dot (x :: xs) (y :: ys) = x * y + dot xs ys := by
  rw [dot_eq, dot_eq, List.zipWith_cons_cons, List.sum_cons]

theorem dot_set (weights : List ℚ) {point : List ℚ} {k : ℕ} {y : ℚ}
    (hy : point[k]? = some y) (x : ℚ) :
    dot weights (point.set k x) = dot weights point + weights.getD k 0 * (x - y) := by
  induction weights generalizing point k with
  | nil => simp [dot_nil_left]
  | cons w weights ih =>
      cases point with
      | nil => cases hy
      | cons z point =>
          cases k with
          | zero =>
              obtain rfl : z = y := Option.some.inj hy
              rw [List.set_cons_zero, dot_cons, dot_cons, List.getD_cons_zero]
              ring
          | succ k =>
              rw [List.getElem?_cons_succ] at hy
              rw [List.set_cons_succ, dot_cons, dot_cons, ih hy, List.getD_cons_succ]
              ring

end Scalar

end IntervalProgramming
