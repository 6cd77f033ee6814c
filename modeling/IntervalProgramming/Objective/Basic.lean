import IntervalProgramming.Domain.Basic

/-!
# Objective functions

An objective is a function of a continuous point, one coordinate for each variable of a domain.  It is
what a piecewise map approximates.
-/

namespace IntervalProgramming

variable {α : Type} [Scalar α]

/-- A function to be approximated over a domain. -/
structure Objective (α : Type) [Scalar α] where
  domain : Domain α
  value : List α → α

/-- The corner of a domain where every variable has its low value. -/
def Domain.lowCorner (d : Domain α) : List α :=
  d.vars.map (·.low)

end IntervalProgramming
