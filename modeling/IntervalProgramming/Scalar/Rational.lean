import IntervalProgramming.Scalar.Basic

/-!
# Rational numbers as a scalar

The scalar instance for `Rat`: every value is finite, the ranking is the usual order, and the whole
part is the floor, clamped.
-/

namespace IntervalProgramming

instance : Scalar Rat where
  decidableLT := inferInstance
  decidableLE := inferInstance
  abs x := if x < 0 then -x else x
  isFinite _ := true
  wholePart limit x := min limit x.floor.toNat
  rankLE x y := decide (x ≤ y)
  rankLE_total x y := by
    simpa only [decide_eq_true_eq] using Rat.le_total
  rankLE_trans x y z := by
    simpa only [decide_eq_true_eq] using Rat.le_trans

end IntervalProgramming
