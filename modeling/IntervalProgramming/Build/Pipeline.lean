import IntervalProgramming.Box.Range
import IntervalProgramming.Build.Config
import IntervalProgramming.Layout.Carving
import IntervalProgramming.Map.Rescale
import IntervalProgramming.Refine.Cutting

/-!
# Building a map from an objective

A build lays out a regular tiling of the domain, tiles the given regions anew, makes the given points
pieces of their own, sets the plateaus aside, fits everything, spends the cuts on the worst pieces, and
may rescale the result.  Plateaus are fitted but never cut.

Each stage has a function of its own, from a layout to a layout or an error; the first stage that
fails decides the error.  A build in words has no result if one of its fits has none.
-/

namespace IntervalProgramming

variable {α : Type} [Scalar α]

namespace BuildConfig

/-- The range that a build rescales onto if it is to. -/
def normalLow : Nat := 0

/-- The high end of the normal range. -/
def normalHigh : Nat := 100

/-- The unit box of the first tiling. -/
def unitBox? (cfg : BuildConfig α) (d : Domain α) : Except BuildError (Box α) :=
  match cfg.unit with
  | .amount n =>
    match Box.unitForAmount? d (max n 1) with
    | none => .error (.badUnit .noUnitForAmount)
    | some unit => .ok unit
  | .widths w =>
    match WidthFault.find? d.size w with
    | some fault => .error (.badUnit (.widths fault))
    | none =>
      match Box.ofWidths? w with
      | none => .error (.badUnit .malformed)
      | some unit => .ok unit

/-- The first tiling. -/
def uniform? (cfg : BuildConfig α) (d : Domain α) : Except BuildError (PiecewiseMap α) := do
  let unit ← cfg.unitBox? d
  match PiecewiseMap.uniform? d unit cfg.degree with
  | none => .error (.badUnit .noTiling)
  | some m => .ok m

/-- Prescribe the grid cell of the configuration, if it has one. -/
def prescribeCell? (cfg : BuildConfig α) (m : PiecewiseMap α) :
    Except BuildError (PiecewiseMap α) :=
  match cfg.gridCell with
  | none => .ok m
  | some cell =>
    match WidthFault.find? m.domain.size cell with
    | some fault => .error (.badGridCell fault)
    | none => .ok (m.setGridCell cell)

/-- Tile regions anew, counting them from `index` on. -/
def retileRegions? : Nat → List (FineRegion α) → PiecewiseMap α →
    Except BuildError (PiecewiseMap α)
  | _, [], m => .ok m
  | index, r :: rest, m =>
    match m.retile? r.region r.unit with
    | none => .error (.badRegion index)
    | some m => retileRegions? (index + 1) rest m

/-- Make points pieces of their own, counting them from `index` on. -/
def isolatePoints? : Nat → List (Box α) → PiecewiseMap α → Except BuildError (PiecewiseMap α)
  | _, [], m => .ok m
  | index, p :: rest, m =>
    if p.isPoint then
      match m.retile? p p with
      | none => .error (.badPoint index)
      | some m => isolatePoints? (index + 1) rest m
    else .error (.badPoint index)

/-- Set the plateaus of the configuration aside.  Also gives the position of the first of them, which
is the number of boxes if there is none. -/
def raisePlateaus? (cfg : BuildConfig α) (m : PiecewiseMap α) :
    Except BuildError (PiecewiseMap α × Nat) :=
  match m.universe? with
  | none => .error .emptyDomain
  | some whole =>
    match cfg.plateaus.findIdx? fun p => !p.isWithin whole with
    | some index => .error (.badPlateau index)
    | none =>
      if cfg.plateaus.isEmpty then .ok (m, m.size)
      else
        match m.insertPlateaus? cfg.plateaus with
        | none => .error (.badPlateau 0)
        | some result => .ok result

/-- The layout before any fitting, and the position of its first pinned box. -/
def layout? (cfg : BuildConfig α) (d : Domain α) : Except BuildError (PiecewiseMap α × Nat) := do
  if d.isEmpty then .error .emptyDomain
  else
    let m ← cfg.uniform? d
    let m ← cfg.prescribeCell? m
    let m ← retileRegions? 0 cfg.regions m
    let m ← isolatePoints? 0 cfg.points m
    cfg.raisePlateaus? m

/-- The number of cuts for a layout of so many pieces: the budget, or the percentage of the pieces if
that is more. -/
def cutLimit (cfg : BuildConfig α) (pieces : Nat) : Nat :=
  max cfg.budget
    (Scalar.wholePart maxCount
      ((pieces : α) * Scalar.max cfg.percent ((0 : Nat) : α) / ((100 : Nat) : α)))

/-- Fit and refine a layout whose boxes from position `pinnedFrom` on are pinned. -/
def refineLayout (cfg : BuildConfig α) (solver : LinearSolver α) (o : Objective α)
    (layout : PiecewiseMap α) (pinnedFrom : Nat) : PiecewiseMap α :=
  let regressor := Regressor.forObjective solver o cfg.degree cfg.samples
  let fitted := Refinement.evaluatePinned layout regressor pinnedFrom
  (fitted.refine (cfg.cutLimit fitted.map.size) cfg.threshold).2.map

/-- Fit and refine a layout in words. -/
def refineLayoutInWords? (cfg : BuildConfig α) (solver : LinearSolver α) (o : Objective α)
    (layout : PiecewiseMap α) (pinnedFrom : Nat) : Option (PiecewiseMap α) := do
  let regressor := Regressor.forObjective solver o cfg.degree cfg.samples
  let fitted ← Refinement.evaluatePinnedInWords? layout regressor pinnedFrom
  let (_, last) ← fitted.refineInWords? (cfg.cutLimit fitted.map.size) cfg.threshold
  return last.map

/-- Rescale a map if the configuration says so. -/
def rescale (cfg : BuildConfig α) (m : PiecewiseMap α) : PiecewiseMap α :=
  if cfg.normalize then m.normalize (normalLow : α) (normalHigh : α) else m

/-- The last steps of a build: rescaling if asked for, and a grid if missing. -/
def finish (cfg : BuildConfig α) (m : PiecewiseMap α) : PiecewiseMap α :=
  (cfg.rescale m).ensureGrid

/-- Build the map of an objective. -/
def build (cfg : BuildConfig α) (solver : LinearSolver α) (o : Objective α) :
    Except BuildError (PiecewiseMap α) := do
  let (layout, pinnedFrom) ← cfg.layout? o.domain
  return cfg.finish (cfg.refineLayout solver o layout pinnedFrom)

/-- Build the map of an objective in words. -/
def buildInWords? (cfg : BuildConfig α) (solver : LinearSolver α) (o : Objective α) :
    Option (Except BuildError (PiecewiseMap α)) :=
  match cfg.layout? o.domain with
  | .error e => some (.error e)
  | .ok (layout, pinnedFrom) => do
    let refined ← cfg.refineLayoutInWords? solver o layout pinnedFrom
    return .ok (cfg.finish refined)

end BuildConfig

end IntervalProgramming
