import IntervalProgramming.Objective.Basic
import IntervalProgramming.Scalar.Binary64

/-!
# Formulas

A small language of objective functions over binary floating point: constants, coordinates, the usual
arithmetic, and a choice by comparison.  Operations are carried out as written, in plain floating
point arithmetic.
-/

namespace IntervalProgramming

/-- An expression in the coordinates of a point. -/
inductive Formula where
  | const (c : Float)
  /-- Coordinate number `k` of the point. -/
  | coord (k : Nat)
  | neg (a : Formula)
  | abs (a : Formula)
  | sqrt (a : Formula)
  | floor (a : Formula)
  | sin (a : Formula)
  | cos (a : Formula)
  | exp (a : Formula)
  | add (a b : Formula)
  | sub (a b : Formula)
  | mul (a b : Formula)
  | div (a b : Formula)
  /-- The second operand if it is below the first, else the first. -/
  | min (a b : Formula)
  /-- The second operand if it is above the first, else the first. -/
  | max (a b : Formula)
  /-- The third operand if the first is below the second, else the fourth. -/
  | ifLess (a b c d : Formula)
  deriving Inhabited

namespace Formula

/-- The value of a formula at a point; a coordinate that the point does not have is zero. -/
def eval (point : Array Float) : Formula → Float
  | const c => c
  | coord k => point.getD k 0
  | neg a => -(a.eval point)
  | abs a => (a.eval point).abs
  | sqrt a => (a.eval point).sqrt
  | floor a => (a.eval point).floor
  | sin a => (a.eval point).sin
  | cos a => (a.eval point).cos
  | exp a => (a.eval point).exp
  | add a b => a.eval point + b.eval point
  | sub a b => a.eval point - b.eval point
  | mul a b => a.eval point * b.eval point
  | div a b => a.eval point / b.eval point
  | min a b =>
    let x := a.eval point
    let y := b.eval point
    if y < x then y else x
  | max a b =>
    let x := a.eval point
    let y := b.eval point
    if x < y then y else x
  | ifLess a b c d => if a.eval point < b.eval point then c.eval point else d.eval point

/-- The objective that a formula defines over a domain. -/
def objective (f : Formula) (domain : Domain Float) : Objective Float where
  domain := domain
  value point := f.eval point.toArray

end Formula

end IntervalProgramming
