import IntervalProgramming.Domain.Basic

/-!
# Even splits

A domain is split into about a given number of cells with equally many parts along every dimension:
the fewest parts per dimension whose power reaches the number asked for, and along each dimension the
smallest width that needs no more parts than that.
-/

namespace IntervalProgramming

variable {α : Type} [Scalar α]

/-- How many parts of width `width` cover `n` indices. -/
def ceilDiv (n width : Nat) : Nat :=
  (n + width - 1) / width

namespace EvenSplit

/-- Raise `parts` until its power reaches `target`.  A power with a positive exponent is at least its
base, so `target` itself is far enough. -/
def raiseTo (dims target parts : Nat) : Nat :=
  if parts < target then
    if Nat.pow parts dims < target then raiseTo dims target (parts + 1) else parts
  else parts
termination_by target - parts

/-- Lower `parts` as long as the power of one less still reaches `target`, but not below 1. -/
def lowerTo (dims target : Nat) : Nat → Nat
  | parts + 2 => if target ≤ Nat.pow (parts + 1) dims then lowerTo dims target (parts + 1) else parts + 2
  | parts => parts

/-- The least positive number whose power reaches `target`, from any first estimate. -/
def settle (dims target estimate : Nat) : Nat :=
  lowerTo dims target (raiseTo dims target (max estimate 1))

/-- The largest number of at most `bits` bits above `found` whose power stays below `target`, found
from the highest bit down. -/
def rootBits (dims target : Nat) : Nat → Nat → Nat
  | 0, found => found
  | bits + 1, found =>
    let next := found + Nat.pow 2 bits
    rootBits dims target bits (if Nat.pow next dims < target then next else found)

/-- The least number of parts per dimension that makes at least `target` cells. -/
def partsPerDim (dims target : Nat) : Nat :=
  settle dims target (rootBits dims target (target.log2 + 1) 0 + 1)

end EvenSplit

/-- The widths that split the domain into about `pieces` cells, one for each variable.  No pieces and
no variables both count as one. -/
def Domain.evenCell (d : Domain α) (pieces : Nat) : List Nat :=
  let parts := EvenSplit.partsPerDim (max d.size 1) (max pieces 1)
  d.vars.map fun v => max (ceilDiv v.count (min parts maxIndex)) 1

end IntervalProgramming
