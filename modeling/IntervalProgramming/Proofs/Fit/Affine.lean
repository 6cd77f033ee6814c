import IntervalProgramming.Proofs.Fit.Error
import IntervalProgramming.Proofs.Fit.NormalEquations

/-!
# Fits of affine objectives

At the tuples of a box an affine objective has the values of a linear model, so
a fit whose linear model is closest to the values at the samples reproduces it at
every tuple of the box, and has no error.  Every solver that minimizes the squared
residuals leads to such a model, and so does the closed form.
-/

namespace IntervalProgramming

/-! ## Affine objectives on a box -/

/-- Whether an objective is a weighted sum of the coordinates and a constant. -/
def Objective.IsAffine (o : Objective ℚ) : Prop :=
  ∃ (weights : List ℚ) (base : ℚ), ∀ point, point.length = o.domain.size →
    o.value point = base + Scalar.dot weights point

namespace Domain

variable {d : Domain ℚ} {es : List Extent} {tuple : List ℕ}

/-- How much a weighted sum of the coordinates grows with the index along an
extent. -/
def slopeAlong (d : Domain ℚ) (weights : List ℚ) (e : Extent) : ℚ :=
  weights.getD e.dim 0 * ((d.vars[e.dim]?).map (·.delta)).getD 0

/-- Moving from the low values adds a linear model of the tuple to a weighted sum
of the coordinates. -/
theorem dot_moveTo (weights : List ℚ) (hdims : (es.map (·.dim)).Nodup)
    (hvalues : d.HasValues es tuple) {point : List ℚ}
    (hlow : ∀ e ∈ es, point[e.dim]? = d.lowCorner[e.dim]?) :
    Scalar.dot weights (d.moveTo es tuple point) =
      Scalar.dot weights point + slopeSum (es.map (d.slopeAlong weights)) tuple := by
  induction hvalues generalizing point with
  | nil => exact (add_zero _).symm
  | @cons e j es tuple hvalue _ ih =>
      rw [List.map_cons, List.nodup_cons] at hdims
      obtain ⟨he, hes⟩ := List.forall_mem_cons.mp hlow
      obtain ⟨x, hx⟩ := Option.isSome_iff_exists.mp hvalue
      have hmove : d.moveTo (e :: es) (j :: tuple) point =
          d.moveTo es tuple (point.set e.dim x) := by
        simp only [moveTo, List.zip_cons_cons, List.foldl_cons, hx]
      have hlow' : ∀ f ∈ es, (point.set e.dim x)[f.dim]? = d.lowCorner[f.dim]? := by
        intro f hf
        have hne : e.dim ≠ f.dim := fun h => hdims.1 (h ▸ List.mem_map_of_mem hf)
        rw [List.getElem?_set_ne hne]
        exact hes f hf
      rw [valueAt?_eq_some hvalue] at hx
      obtain ⟨v, hv, rfl⟩ := Option.map_eq_some_iff.mp hx
      have hstart : point[e.dim]? = some v.low := by
        rw [he, lowCorner, List.getElem?_map, hv, Option.map_some]
      rw [hmove, ih hdims.2 hlow', Scalar.dot_set weights hstart, List.map_cons, slopeSum,
        slopeAlong, hv, ValueRange.value, Option.map_some, Option.getD_some]
      ring

end Domain

/-- Along a single index a slope is a constant. -/
theorem Extent.exists_slopesFor (es : List Extent) (weight : Extent → ℚ) :
    ∃ slopes start, SlopesFor es slopes ∧ ∀ tuple, List.Forall₂ Has es tuple →
      slopeSum (es.map weight) tuple = start + slopeSum slopes tuple := by
  induction es with
  | nil =>
      refine ⟨[], 0, List.Forall₂.nil, fun tuple _ => ?_⟩
      rw [List.map_nil, zero_add]
  | cons e es ih =>
      obtain ⟨slopes, start, hslopes, hsum⟩ := ih
      by_cases hpoint : e.lo = e.hi
      · refine ⟨0 :: slopes, weight e * e.lo + start,
          List.Forall₂.cons (fun _ => rfl) hslopes, ?_⟩
        rintro _ (_ | @⟨_, j, _, tuple, hj, htuple⟩)
        obtain rfl : j = e.lo := by
          have := hj.1
          have := hj.2
          omega
        rw [List.map_cons, slopeSum, slopeSum, hsum tuple htuple]
        ring
      · refine ⟨weight e :: slopes, start,
          List.Forall₂.cons (fun h => absurd h hpoint) hslopes, ?_⟩
        rintro _ (_ | @⟨_, j, _, tuple, _, htuple⟩)
        rw [List.map_cons, slopeSum, slopeSum, hsum tuple htuple]
        ring

/-- On a box the values of an affine objective are those of a linear model. -/
theorem Objective.IsAffine.exists_model {o : Objective ℚ} (ho : o.IsAffine) {b : Box ℚ}
    (hb : o.domain.Encloses b) :
    ∃ w : List ℚ × ℚ, Extent.SlopesFor b.extents w.1 ∧
      ∀ tuple, b.contains tuple = true → o.valueOn b.extents tuple = modelValue w tuple := by
  obtain ⟨weights, base, hvalue⟩ := ho
  obtain ⟨slopes, start, hslopes, hsum⟩ :=
    Extent.exists_slopesFor b.extents (o.domain.slopeAlong weights)
  refine ⟨(slopes, base + Scalar.dot weights o.domain.lowCorner + start), hslopes, ?_⟩
  intro tuple htuple
  have hvalues := hb.hasValues htuple
  have hrest := o.domain.atRest_lowCorner b.extents
  rw [valueOn, hvalue _ (o.domain.atRest_pointOn b.extents tuple).length_eq,
    ← hrest.moveTo hb.nodup hvalues,
    Domain.dot_moveTo weights hb.nodup hvalues fun e _ => rfl,
    hsum tuple (Box.contains_eq_true_iff.mp htuple), modelValue]
  ring

/-! ## Exact fits -/

namespace Regressor

/-- A fit that reproduces the objective on the box: it has the value of the
objective at every tuple, no slope along a single index, and no error. -/
structure Reproduces (r : Regressor ℚ) (b : Box ℚ) (res : FitResult ℚ) : Prop where
  extents : res.box.extents = b.extents
  eval : ∀ tuple, b.contains tuple = true →
    res.box.eval tuple = r.objective.valueOn b.extents tuple
  still : List.Forall₂ (fun e s => e.lo = e.hi → s = 0) res.box.extents res.box.slopes
  error : res.error = 0

variable {r : Regressor ℚ} {b : Box ℚ}

/-- A fit whose linear model is closest to the values at the samples reproduces an
affine objective. -/
theorem reproduces_of_solves (hdegree : r.degree = .linear) (haffine : r.objective.IsAffine)
    (hb : r.objective.domain.Encloses b) (hn : 2 ≤ r.samples)
    (hsolver : SolvesLeastSquares r.solver ((b.sampleTuples r.samples).map b.designRow)
      ((b.sampleTuples r.samples).map (r.objective.valueOn b.extents))) :
    r.Reproduces b (r.fit b) := by
  obtain ⟨w, hw, hvalue⟩ := haffine.exists_model hb
  obtain ⟨m, hmodel, hclosest⟩ := Box.exists_linearModel?_closest hn hsolver
  obtain rfl : m = w := hclosest.eq_of_linear hn hw fun tuple htuple =>
    hvalue tuple (Box.contains_of_mem_sampleTuples hn htuple)
  have hbox : (r.fit b).box = b.setModel m.1 m.2 := by
    simp only [fit_eq hb hn, fitted, model, hdegree, hmodel]
  have hslopes : (b.setModel m.1 m.2).slopes = m.1 := by
    rw [Box.setModel, hw.length_eq, List.take_length, Nat.sub_self, List.replicate_zero,
      List.append_nil]
  have heval : ∀ tuple, b.contains tuple = true →
      (r.fit b).box.eval tuple = r.objective.valueOn b.extents tuple := by
    intro tuple htuple
    rw [hbox, Box.eval_eq, hslopes, hvalue tuple htuple]
    rfl
  refine
    { extents := r.extents_fit b
      eval := heval
      still := ?_
      error := ?_ }
  · rw [hbox, hslopes]
    exact hw
  · obtain ⟨tuple, htuple, hmiss⟩ := (measures_fit hb hn).error.1
    have hin : b.contains tuple = true :=
      Box.contains_of_mem_sampleTuples (by omega) (Box.mem_sampleTuples.mpr htuple)
    rw [← hmiss, hdegree, Box.evalAs, heval tuple hin, sub_self, abs_zero]

/-- A linear fit of an affine objective has a result in words.  It reproduces the
objective on the whole box if the solver gives a least squares solution of the
equations of the samples, which the closed form does. -/
theorem fit_affine_exact (hdegree : r.degree = .linear) (haffine : r.objective.IsAffine)
    (hb : r.objective.domain.Encloses b) (hn : 2 ≤ r.samples)
    (hword : r.samples < 2 ^ 63) :
    r.fitInWords? b = some (r.fit b) ∧
      (SolvesLeastSquares r.solver ((b.sampleTuples r.samples).map b.designRow)
          ((b.sampleTuples r.samples).map (r.objective.valueOn b.extents)) →
        r.Reproduces b (r.fit b)) ∧
      (r.solver = leastSquares → r.Reproduces b (r.fit b)) := by
  have hexact := reproduces_of_solves hdegree haffine hb hn
  refine ⟨InWords.fitInWords?_eq ⟨hn, hword⟩ b, hexact, fun hsolver => hexact ?_⟩
  rw [hsolver]
  exact solvesSamples_leastSquares b r.samples hn _

/-- The sum of the coordinates of the plate, fitted by linear models of a solver. -/
def plateSum (solver : LinearSolver ℚ) : Regressor ℚ :=
  forObjective solver ⟨Domain.plate, List.sum⟩ .linear 3

/-- The last row of the plate without its first and its last column. -/
def plateRow : Box ℚ :=
  Box.ofIntervals [innerColumns, Interval.point 2]

/-- A solver of systems with one unknown besides the intercept: the regression
line. -/
def lineSolver : LinearSolver ℚ := fun rows values =>
  let xs := rows.map fun row => row.getD 1 0
  let slope := Scalar.regressionSlope xs values
  some [Scalar.mean values - slope * Scalar.mean xs, slope]

/-- On a row of the plate the sum of the coordinates is found from three of its
columns, by the closed form and by a regression line. -/
theorem fit_affine_exact_plate :
    (∀ solver, (plateSum solver).degree = .linear ∧ (plateSum solver).objective.IsAffine ∧
      (plateSum solver).samples = 3) ∧
      Domain.plate.Encloses plateRow ∧
      SolvesLeastSquares lineSolver ((plateRow.sampleTuples 3).map plateRow.designRow)
        ((plateRow.sampleTuples 3).map
          ((plateSum lineSolver).objective.valueOn plateRow.extents)) ∧
      (plateSum lineSolver).Reproduces plateRow ((plateSum lineSolver).fit plateRow) ∧
      (plateSum leastSquares).Reproduces plateRow
        ((plateSum leastSquares).fit plateRow) := by
  have haffine : ∀ solver, (plateSum solver).objective.IsAffine := by
    refine fun solver => ⟨[1, 1], 0, fun point hlen => ?_⟩
    obtain ⟨x, y, rfl⟩ := List.length_eq_two.mp hlen
    rw [Scalar.dot_eq, zero_add]
    simp [plateSum, forObjective]
  have hb : Domain.plate.Encloses plateRow := ⟨by decide, by decide⟩
  have hsolver : SolvesLeastSquares lineSolver
      ((plateRow.sampleTuples 3).map plateRow.designRow)
      ((plateRow.sampleTuples 3).map
        ((plateSum lineSolver).objective.valueOn plateRow.extents)) := by
    refine ⟨[3, 1], by decide +kernel, by decide +kernel, fun other _ => ?_⟩
    have hzero : residualSquares ((plateRow.sampleTuples 3).map plateRow.designRow)
        ((plateRow.sampleTuples 3).map
          ((plateSum lineSolver).objective.valueOn plateRow.extents))
        [3, 1] = 0 := by decide +kernel
    rw [hzero]
    exact sumOver_nonneg fun _ _ => sq_nonneg _
  obtain ⟨-, hline, -⟩ := fit_affine_exact (r := plateSum lineSolver) rfl
    (haffine lineSolver) hb (by decide) (by decide)
  obtain ⟨-, -, hclosed⟩ := fit_affine_exact (r := plateSum leastSquares) rfl
    (haffine leastSquares) hb (by decide) (by decide)
  exact ⟨fun solver => ⟨rfl, haffine solver, rfl⟩, hb, hsolver, hline hsolver, hclosed rfl⟩

end Regressor

end IntervalProgramming
