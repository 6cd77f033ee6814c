import IntervalProgramming.Fit.Samples

/-!
# Least squares

Each sample tuple of a box gives an equation for a linear model of the box: an intercept and slopes
that make up the value found at the tuple.  Coordinates are taken from the low corner of the box, and
an extent of a single index has none and gets slope zero.  A solver of linear systems is asked for
the coefficients, and the model is moved to the indices of the domain at the end.

Any solver will do that minimizes the squared residuals.  The one given here is in closed form.
Sample tuples form a product lattice, so the coordinates are uncorrelated: once the intercept is
eliminated from the normal equations each slope stands alone in its own, and the intercept is what
remains of the sum of the values.
-/

namespace IntervalProgramming

variable {α : Type} [Scalar α]

/-! ## The linear model of a solver -/

/-- A solver of linear systems: the coefficients it finds for the rows of a system and the values of
their equations, if it finds any. -/
abbrev LinearSolver (α : Type) : Type :=
  List (List α) → List α → Option (List α)

namespace Extent

/-- The coordinates of a tuple along the extents of several indices, each taken from the first
index. -/
def spanCoords : List Extent → List Nat → List α
  | e :: es, j :: tuple =>
    if e.isPoint then spanCoords es tuple
    else ((j - e.lo : Nat) : α) :: spanCoords es tuple
  | _, _ => []

/-- The slopes of all extents, given those of the extents of several indices. -/
def spreadSlopes : List Extent → List α → List α
  | [], _ => []
  | e :: es, coefs =>
    if e.isPoint then ((0 : Nat) : α) :: spreadSlopes es coefs
    else coefs.headD ((0 : Nat) : α) :: spreadSlopes es coefs.tail

end Extent

namespace Box

/-- The equation of a tuple for the intercept at the low corner of the box and the slopes. -/
def designRow (b : Box α) (tuple : List Nat) : List α :=
  ((1 : Nat) : α) :: Extent.spanCoords b.extents tuple

/-- The slopes and the intercept of the linear model that a solver finds for values at tuples. -/
def linearModel? (solver : LinearSolver α) (b : Box α) (tuples : List (List Nat))
    (values : List α) : Option (List α × α) :=
  (solver (tuples.map b.designRow) values).map fun coefs =>
    let slopes := Extent.spreadSlopes b.extents coefs.tail
    (slopes, (slopes.zip b.extents).foldl (fun acc (s, e) => acc - s * (e.lo : α))
      (coefs.headD ((0 : Nat) : α)))

end Box

/-! ## The closed form -/

namespace Scalar

/-- The mean of a list. -/
def mean (xs : List α) : α :=
  sum xs / ((Nat.max xs.length 1 : Nat) : α)

/-- The sum of the products of corresponding entries. -/
def dot (xs ys : List α) : α :=
  sum (List.zipWith (· * ·) xs ys)

/-- The slope of the least squares line through points with coordinates `xs` and values `ys`: the
second normal equation less the multiple of the first that removes the intercept. -/
def regressionSlope (xs ys : List α) : α :=
  let multiple := sum xs / (xs.length : α)
  (dot xs ys - multiple * sum ys) / (dot xs xs - multiple * sum xs)

/-- The unit of large values, which are those beyond it. -/
def largeUnit : Nat := Nat.pow 2 512

/-- The unit in which values are fitted: one, unless there is a large value. -/
def fitUnit (values : List α) : α :=
  if values.any fun y => decide ((largeUnit : α) < abs y) then (largeUnit : α) else ((1 : Nat) : α)

end Scalar

/-- The columns of a system after the first. -/
def coordColumns (rows : List (List α)) : List (List α) :=
  (List.range ((rows.headD []).length - 1)).map fun k =>
    rows.map fun row => row.getD (k + 1) ((0 : Nat) : α)

/-- The least squares solution of a system whose first column is one and whose other columns are
uncorrelated.

The normal equations hold sums of products that may be far larger than the values and the
coefficients themselves.  Large values are therefore fitted in a larger unit: the solution depends
linearly on the values, so the unit is taken out before and put back after. -/
def leastSquares : LinearSolver α := fun rows values =>
  let unit := Scalar.fitUnit values
  let units := values.map (· / unit)
  let terms := (coordColumns rows).map fun xs => (Scalar.sum xs, Scalar.regressionSlope xs units)
  let remainder := terms.foldl (fun acc (total, slope) => acc - total * slope) (Scalar.sum units)
  some (remainder / (values.length : α) * unit :: terms.map (·.2 * unit))

end IntervalProgramming
