import IntervalProgramming.Solve.Order

/-!
# Search for the best point

The search goes through combinations of boxes, one of each map, that share an index tuple.  Each level
narrows the region inherited from the level above by the boxes of one map that meet it and adds their
models, so that a region of the last level carries the sum of all maps over it and its best point is
known.

A region is replaced as the best find only by a strictly better one.  With pruning on, a branch is
skipped when an upper bound on everything below it does not beat the best find by the slack that the
optimality percentage allows.
-/

namespace IntervalProgramming

variable {α : Type} [Scalar α]

/-- A complete combination: its region with the summed model, and its largest value. -/
structure Find (α : Type) [Scalar α] where
  value : α
  region : Box α

/-- The state of a search. -/
structure Search (α : Type) [Scalar α] where
  best : Option (Find α) := none
  stats : SolveStats := {}

/-- What a search goes by. -/
structure SearchRule (α : Type) [Scalar α] where
  prune : Bool
  /-- By how much of its size the best find has to be beaten. -/
  slack : α

namespace SearchRule

/-- The rule of a configuration: without slack at 100 percent. -/
def ofConfig (cfg : SolverConfig α) : SearchRule α where
  prune := cfg.prune
  slack := ((100 : Nat) : α) / cfg.optimality - ((1 : Nat) : α)

/-- Whether a bound beats a find; the bound of nothing beats none. -/
def beats (rule : SearchRule α) (bound : Option α) (best : Find α) : Bool :=
  match bound with
  | none => false
  | some x => decide (best.value + rule.slack * Scalar.abs best.value < x)

end SearchRule

/-- An upper bound on the value of any completion of a region by the given levels. -/
def completionBound (levels : List (PiecewiseMap α)) (region : Box α) : Option α :=
  levels.foldl
    (fun acc m =>
      match acc, m.bound region with
      | some x, some y => some (x + y)
      | _, _ => none)
    (some region.maxVal)

/-- Whether the branch of a region and the levels below it is skipped.  Before the first find none
is. -/
def SearchRule.skips (rule : SearchRule α) (best : Option (Find α))
    (levels : List (PiecewiseMap α)) (region : Box α) : Bool :=
  match best with
  | none => false
  | some find => rule.prune && !rule.beats (completionBound levels region) find

namespace Search

/-- Take a complete region into account. -/
def visitLeaf (s : Search α) (region : Box α) : Search α where
  best :=
    match s.best with
    | none => some ⟨region.maxVal, region⟩
    | some find =>
      if find.value < region.maxVal then some ⟨region.maxVal, region⟩ else some find
  stats := { s.stats with leaves := s.stats.leaves + 1 }

/-- Note a skipped branch. -/
def notePruned (s : Search α) : Search α :=
  { s with stats := { s.stats with pruned := s.stats.pruned + 1 } }

/-- Note a box met with a region. -/
def noteMeet (s : Search α) : Search α :=
  { s with stats := { s.stats with meets := s.stats.meets + 1 } }

/-- Search the completions of a region by the given levels. -/
def descend (rule : SearchRule α) :
    List (PiecewiseMap α) → Box α → Search α → Search α
  | [], region, s => s.visitLeaf region
  | m :: levels, region, s =>
    if rule.skips s.best (m :: levels) region then s.notePruned
    else
      (m.overlapping region).foldl
        (fun s ix =>
          match m.boxes[ix]? with
          | none => s
          | some b =>
            match region.meetAs? b m.degree with
            | none => s.noteMeet
            | some narrowed => descend rule levels narrowed s.noteMeet)
        s

/-- Search all combinations: every box of the first map is the region of a branch. -/
def run (rule : SearchRule α) (levels : List (PiecewiseMap α)) (s : Search α) : Search α :=
  match levels with
  | [] => s
  | top :: rest =>
    top.boxes.foldl (fun s b => descend rule rest (b.asLinear top.degree) s) s

/-- The summed value of maps at an index tuple, if all of them cover it. -/
def valueAt? (levels : List (PiecewiseMap α)) (tuple : List Nat) : Option α :=
  levels.foldl
    (fun acc m =>
      match acc, m.eval? tuple with
      | some x, some y => some (x + y)
      | _, _ => none)
    (some ((0 : Nat) : α))

/-- The find that a seed makes. -/
def seedFind? (levels : List (PiecewiseMap α)) (seed : Option (List Nat)) : Option (Find α) := do
  let tuple ← seed
  let value ← valueAt? levels tuple
  return ⟨value, { (Box.ofPoint tuple : Box α) with intercept := value }⟩

end Search

/-- The solution that a search found. -/
def Search.solution? (s : Search α) : Option (Solution α) :=
  s.best.map fun find => ⟨find.region.maxPoint, find.value, s.stats⟩

/-- The index tuple with the largest sum of the maps' values.  There is none for an empty list of
maps, or if a map has no box, or if no tuple is covered by all maps.  A faulty percentage is reported
before a map over another domain, and that before a faulty order. -/
def solve (maps : List (PiecewiseMap α)) (cfg : SolverConfig α) :
    Except (SolveError α) (Option (Solution α)) :=
  match maps with
  | [] => .ok none
  | first :: _ =>
    if !(decide (((0 : Nat) : α) < cfg.optimality) &&
        decide (cfg.optimality ≤ ((100 : Nat) : α))) then
      .error (.badOptimality cfg.optimality)
    else
      match maps.findIdx? fun m => !(m.domain == first.domain) with
      | some index => .error (.domainMismatch index)
      | none =>
        match cfg.order.resolve? maps with
        | .error fault => .error (.badOrder fault)
        | .ok order =>
          if maps.any (·.isEmpty) then .ok none
          else
            let levels := order.filterMap (maps[·]?)
            let start : Search α := { best := Search.seedFind? levels cfg.seed }
            .ok (Search.run (SearchRule.ofConfig cfg) levels start).solution?

end IntervalProgramming
