import IntervalProgramming.Box.Model
import IntervalProgramming.Fit.LeastSquares
import IntervalProgramming.Word

/-!
# Fitting boxes to an objective

A regressor gives a box the model that comes closest to an objective over the box, and says how far
off the model is.  A constant model is the mean of the samples; a linear one is what a solver of
linear systems finds for them, or the mean again if the solver fails.  The error is the largest miss
over a finer lattice, which holds the samples and the points between them, so that an objective which
only looks linear at the samples is still found out.

A regressor also counts its fits and its evaluations of the objective.
-/

namespace IntervalProgramming

variable {α : Type} [Scalar α]

/-- A fitter for one objective. -/
structure Regressor (α : Type) [Scalar α] where
  solver : LinearSolver α
  objective : Objective α
  degree : Degree
  /-- Sample indices along each extent, ends included. -/
  samples : Nat
  /-- Fits made so far. -/
  fits : Nat := 0
  /-- Evaluations of the objective so far. -/
  evals : Nat := 0

/-- What a fit gives: the box with its new model, the error, and the regressor after the fit. -/
structure FitResult (α : Type) [Scalar α] where
  box : Box α
  error : α
  regressor : Regressor α

namespace Regressor

/-- The number of sample indices along an extent unless another one is asked for. -/
def defaultSamples : Nat := 3

/-- The fewest sample indices along an extent: its two ends. -/
def minSamples : Nat := 2

/-- A regressor that has not been used. -/
def forObjective (solver : LinearSolver α) (objective : Objective α) (degree : Degree)
    (samples : Nat) : Regressor α where
  solver := solver
  objective := objective
  degree := degree
  samples := max samples minSamples

/-- The number of check indices along an extent: the samples and one between each two. -/
def checkSamples (r : Regressor α) : Nat :=
  2 * r.samples - 1

/-- The number of check indices along an extent, where no number leaves its count word. -/
def checkSamplesInWords? (r : Regressor α) : Option Nat := do
  let doubled ← countWord? (2 * r.samples)
  if 0 < doubled then some (doubled - 1) else none

/-- The box with the model that comes closest to the given values at its sample tuples. -/
def model (r : Regressor α) (b : Box α) (tuples : List (List Nat)) (values : List α) : Box α :=
  match r.degree with
  | .constant => b.setModel [] (Scalar.mean values)
  | .linear =>
    match b.linearModel? r.solver tuples values with
    | some (slopes, intercept) => b.setModel slopes intercept
    | none => b.setModel [] (Scalar.mean values)

/-- The largest distance between the model of a box and the given values, `least` at the least.  An
undefined distance is passed over. -/
def largestMiss (r : Regressor α) (b : Box α) (least : α) (tuples : List (List Nat))
    (values : List α) : α :=
  (tuples.zip values).foldl
    (fun err (tuple, y) => Scalar.max err (Scalar.abs (b.evalAs tuple r.degree - y))) least

/-- The tuples of the check lattice that are no sample tuples. -/
def checkTuples (r : Regressor α) (b : Box α) : List (List Nat) :=
  let axes := b.sampleAxes r.samples
  (b.sampleTuples r.checkSamples).filter fun tuple =>
    !(tuple.zip axes).all fun (j, axis) => axis.contains j

/-- Give a box the best model for the objective. -/
def fit (r : Regressor α) (b : Box α) : FitResult α :=
  let tuples := b.sampleTuples r.samples
  let (values, point) := r.objective.visit b.extents tuples r.objective.domain.lowCorner
  let fitted := r.model b tuples values
  let checks := r.checkTuples b
  let (checkValues, _) := r.objective.visit b.extents checks point
  let missed := r.largestMiss fitted ((0 : Nat) : α) tuples values
  { box := fitted
    error := r.largestMiss fitted missed checks checkValues
    regressor :=
      { r with fits := r.fits + 1, evals := r.evals + tuples.length + checks.length } }

/-- Give a box the best model, where no number leaves its word.  The number of check indices is
computed anew for each extent. -/
def fitInWords? (r : Regressor α) (b : Box α) : Option (FitResult α) :=
  (b.extents.mapM fun _ => r.checkSamplesInWords?).map fun _ => r.fit b

end Regressor

end IntervalProgramming
