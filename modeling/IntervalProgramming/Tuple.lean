/-!
# Tuples

Products of lists, one list per coordinate.  The two products hold the same tuples and differ in
which coordinate runs fastest.  `allBelow` checks a predicate on a whole box of index tuples without
listing them.
-/

namespace IntervalProgramming.Tuple

/-- All ways to pick one entry of each list, the first coordinate running fastest. -/
def firstFastest {β : Type} : List (List β) → List (List β)
  | [] => [[]]
  | axis :: rest => (firstFastest rest).flatMap fun tuple => axis.map fun x => x :: tuple

/-- All ways to pick one entry of each list, the last coordinate running fastest. -/
def lastFastest {β : Type} : List (List β) → List (List β)
  | [] => [[]]
  | axis :: rest =>
    let tuples := lastFastest rest
    axis.flatMap fun x => tuples.map fun tuple => x :: tuple

/-- Whether `p` holds of every tuple whose coordinates lie below the given limits. -/
def allBelow : List Nat → (List Nat → Bool) → Bool
  | [], p => p []
  | n :: limits, p => allBelow limits fun tuple => Nat.all n fun i _ => p (i :: tuple)

end IntervalProgramming.Tuple
