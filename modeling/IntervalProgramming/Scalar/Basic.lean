/-!
# Scalars

Everything numeric in this library (grid values, slopes, intercepts, fit errors, bounds) is written
once, over an arbitrary scalar type.  Binary floating point is the scalar a program runs with and the
rational numbers are the scalar a theorem is about; both instances have modules of their own.

A scalar need not be totally ordered by `<`, and `x == x` may fail: floating point has values that
compare with nothing.  Each rule below says what it does with them.
-/

namespace IntervalProgramming

/-- The arithmetic this library needs of its numbers. -/
class Scalar (α : Type) extends Add α, Sub α, Mul α, Div α, LT α, LE α, BEq α, NatCast α where
  [decidableLT : DecidableLT α]
  [decidableLE : DecidableLE α]
  /-- The distance from zero. -/
  abs : α → α
  /-- Whether the scalar is an actual number, neither infinite nor undefined. -/
  isFinite : α → Bool
  /-- Negative infinity, where the scalars have it. -/
  negInfinity? : Option α := none
  /-- `wholePart limit x` drops the fraction of `x` and clamps the rest into `0, …, limit`; it is
  zero for a scalar that is not a number. -/
  wholePart : Nat → α → Nat
  /-- A total preorder on all scalars, those that compare with nothing included.  Rankings use it,
  since a ranking has to place every value. -/
  rankLE : α → α → Bool
  rankLE_total : ∀ x y, rankLE x y = true ∨ rankLE y x = true
  rankLE_trans : ∀ x y z, rankLE x y = true → rankLE y z = true → rankLE x z = true

attribute [reducible, instance] Scalar.decidableLT Scalar.decidableLE

namespace Scalar

variable {α : Type} [Scalar α]

/-- The larger of two scalars.  The first one wins a tie, and an undefined operand is ignored as long
as the other is defined. -/
def max (x y : α) : α :=
  if x < y then y else if x == x then x else y

/-- The smaller of two scalars, with the tie and undefined-operand rules of `max`. -/
def min (x y : α) : α :=
  if y < x then y else if x == x then x else y

/-- The largest of a list, `none` for the empty list. -/
def largest? : List α → Option α
  | [] => none
  | x :: xs => some (xs.foldl max x)

/-- The smallest of a list, `none` for the empty list. -/
def smallest? : List α → Option α
  | [] => none
  | x :: xs => some (xs.foldl min x)

/-- The sum of a list, added from the left. -/
def sum : List α → α
  | [] => ((0 : Nat) : α)
  | x :: xs => xs.foldl (· + ·) x

/-! ## Bounds

An upper bound over a collection that may be empty is an `Option α`: `none` is the bound of nothing
and lies below every scalar. -/

/-- Raise an upper bound so that it covers `x`.  An undefined `x` asks for nothing. -/
def raise : Option α → α → Option α
  | none, x => if x == x then some x else none
  | some b, x => some (max b x)

/-- The least bound that covers both bounds. -/
def join : Option α → Option α → Option α
  | b, none => b
  | b, some x => raise b x

/-- The least upper bound of a list. -/
def upperBound (xs : List α) : Option α :=
  xs.foldl raise none

end Scalar

end IntervalProgramming
