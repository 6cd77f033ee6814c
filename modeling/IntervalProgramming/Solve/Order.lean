import IntervalProgramming.Solve.Config

/-!
# The order of search levels

Which map is searched first.  An explicit order has to name every map once; sorting by weight keeps
maps of equal weight in the given order.
-/

namespace IntervalProgramming

variable {α : Type} [Scalar α]

/-- What is wrong with the entries of an order of `n` maps, after some have been seen. -/
def OrderFault.scan? (n : Nat) : List Nat → List Nat → Option OrderFault
  | _, [] => none
  | seen, ix :: rest =>
    if n ≤ ix then some (.unknown ix)
    else if seen.contains ix then some (.repeated ix)
    else scan? n (ix :: seen) rest

/-- What is wrong with an order of `n` maps, if anything is. -/
def OrderFault.find? (n : Nat) (order : List Nat) : Option OrderFault :=
  if order.length != n then some (.count order.length n) else scan? n [] order

/-- The weight of a map in a ranking.  A map without boxes weighs negative infinity, or nothing where
the scalars have no infinity. -/
def PiecewiseMap.weight? (m : PiecewiseMap α) : Option α :=
  m.maxWeight?.or Scalar.negInfinity?

/-- Whether a map of weight `x` may come before one of weight `y`; no weight counts as below all
numbers. -/
def heavier : Option α → Option α → Bool
  | some x, some y => Scalar.rankLE y x
  | _, none => true
  | none, some _ => false

/-- The positions of maps in search order. -/
def PriorityOrder.resolve? (order : PriorityOrder) (maps : List (PiecewiseMap α)) :
    Except OrderFault (List Nat) :=
  match order with
  | .asGiven => .ok (List.range maps.length)
  | .byMaxWeight =>
    let weights := (maps.map (·.weight?)).zipIdx
    .ok ((weights.mergeSort fun v w => heavier v.1 w.1).map (·.2))
  | .explicit positions =>
    match OrderFault.find? maps.length positions with
    | some fault => .error fault
    | none => .ok positions

end IntervalProgramming
