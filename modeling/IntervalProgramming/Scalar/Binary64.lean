import IntervalProgramming.Scalar.Basic

/-!
# Binary floating point as a scalar

The scalar instance for `Float`, and one for bare bit patterns.  Both rank by the standard's total
order on bit patterns: read the sixty-three magnitude bits as a number, negate the patterns whose sign
bit is set, and compare.  So `-0` ranks below `0` and every infinity above every number of its sign.

`Float` has one undefined value, which ranks on top.  A bit pattern keeps the sign and the payload of
an undefined value, and the ranking sees both; its arithmetic is that of `Float`.
-/

namespace IntervalProgramming

/-- The position of a bit pattern in the total order: sign-magnitude read as a number, with `-0`
just below `0`. -/
def binary64Rank (pattern : UInt64) : Int :=
  let bits := pattern.toNat
  if bits < Nat.pow 2 63 then (bits : Int)
  else -((bits : Int) - (Nat.pow 2 63 : Nat)) - 1

instance : Scalar Float where
  natCast := Float.ofNat
  abs := Float.abs
  isFinite := Float.isFinite
  negInfinity? := some (Float.ofBits 0xFFF0000000000000)
  wholePart limit x := min limit x.toUInt64.toNat
  rankLE x y := decide (binary64Rank x.toBits ≤ binary64Rank y.toBits)
  rankLE_total x y := by
    simp only [decide_eq_true_eq]
    omega
  rankLE_trans x y z := by
    simp only [decide_eq_true_eq]
    omega

/-- A floating point number as its bits, an undefined value with its sign and payload. -/
structure BitPattern where
  bits : UInt64
  deriving DecidableEq, Repr

namespace BitPattern

/-- The bits of a number. -/
def ofFloat (x : Float) : BitPattern :=
  ⟨x.toBits⟩

/-- The number of these bits. -/
def toFloat (x : BitPattern) : Float :=
  Float.ofBits x.bits

end BitPattern

instance : Scalar BitPattern where
  add x y := .ofFloat (x.toFloat + y.toFloat)
  sub x y := .ofFloat (x.toFloat - y.toFloat)
  mul x y := .ofFloat (x.toFloat * y.toFloat)
  div x y := .ofFloat (x.toFloat / y.toFloat)
  lt x y := x.toFloat < y.toFloat
  le x y := x.toFloat ≤ y.toFloat
  beq x y := x.toFloat == y.toFloat
  natCast n := .ofFloat (Float.ofNat n)
  decidableLT x y := inferInstanceAs (Decidable (x.toFloat < y.toFloat))
  decidableLE x y := inferInstanceAs (Decidable (x.toFloat ≤ y.toFloat))
  abs x := .ofFloat x.toFloat.abs
  isFinite x := x.toFloat.isFinite
  negInfinity? := some ⟨0xFFF0000000000000⟩
  wholePart limit x := Scalar.wholePart limit x.toFloat
  rankLE x y := decide (binary64Rank x.bits ≤ binary64Rank y.bits)
  rankLE_total x y := by
    simp only [decide_eq_true_eq]
    omega
  rankLE_trans x y z := by
    simp only [decide_eq_true_eq]
    omega

end IntervalProgramming
