import IntervalProgramming.Decimal.Shortest
import IntervalProgramming.Map.Basic

/-!
# Search parameters and results

What a search is to do, what it found, and what can be wrong with the request.
-/

namespace IntervalProgramming

variable {α : Type} [Scalar α]

/-- The order in which maps become search levels. -/
inductive PriorityOrder where
  /-- As the maps are given. -/
  | asGiven
  /-- By largest value, the heaviest map first; equals stay as given. -/
  | byMaxWeight
  /-- In an order of positions. -/
  | explicit (order : List Nat)
  deriving DecidableEq, Repr

/-- The parameters of a search. -/
structure SolverConfig (α : Type) [Scalar α] where
  order : PriorityOrder := .asGiven
  /-- Whether branches that cannot beat the best find are skipped. -/
  prune : Bool := true
  /-- How much of the optimum is good enough, in percent.  At 100 the search is exact. -/
  optimality : α := ((100 : Nat) : α)
  /-- An index tuple whose value is the first find, if every map covers it. -/
  seed : Option (List Nat) := none

/-- What a search has done. -/
structure SolveStats where
  /-- Complete combinations of boxes reached. -/
  leaves : Nat := 0
  /-- Branches skipped because of their bound. -/
  pruned : Nat := 0
  /-- Boxes met with a region. -/
  meets : Nat := 0
  deriving DecidableEq, Repr

/-- The best index tuple and its summed value. -/
structure Solution (α : Type) [Scalar α] where
  point : List Nat
  value : α
  stats : SolveStats

/-- The value of a named variable of a domain at the point of a solution. -/
def Solution.valueOf? (s : Solution α) (d : Domain α) (name : String) : Option α := do
  let k ← d.indexOf? name
  let j ← s.point[k]?
  d.valueAt? k j

/-- What can be wrong with an explicit order of so many maps. -/
inductive OrderFault where
  /-- It has the wrong length. -/
  | count (entries maps : Nat)
  /-- It has a map twice. -/
  | repeated (ix : Nat)
  /-- It has a map that does not exist. -/
  | unknown (ix : Nat)
  deriving DecidableEq, Repr

/-- The wording of an order fault. -/
def OrderFault.message : OrderFault → String
  | .count entries maps => s!"{entries} entries for {maps} maps"
  | .repeated ix => s!"map {ix} listed twice"
  | .unknown ix => s!"map {ix} out of range"

/-- Why a search is refused. -/
inductive SolveError (α : Type) where
  /-- A map has another domain than the first one. -/
  | domainMismatch (index : Nat)
  | badOrder (fault : OrderFault)
  | badOptimality (percent : α)
  deriving DecidableEq, Repr

/-- The wording of a search error. -/
def SolveError.message : SolveError Float → String
  | .domainMismatch index => s!"map #{index} does not share the domain of map #0"
  | .badOrder fault => "invalid priority order: " ++ fault.message
  | .badOptimality percent =>
    "optimality percentage " ++ Decimal.positional percent ++ " is outside (0, 100]"

end IntervalProgramming
