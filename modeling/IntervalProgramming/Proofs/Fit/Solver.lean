import IntervalProgramming.Proofs.Fit.ClosestModel

/-!
# Closest models by a solver

A fit leaves its linear model to a solver of linear systems: each sample tuple
gives an equation for the intercept at the low corner of the box and the slopes
of the extents of several indices.  If the solver minimizes the squared
residuals, the model it leads to is closest to the values at the samples.
-/

namespace IntervalProgramming

/-! ## Systems of equations -/

/-- The sum of the squared residuals of a linear system. -/
def residualSquares (rows : List (List ℚ)) (values coefs : List ℚ) : ℚ :=
  sumOver (rows.zip values) fun equation =>
    (Scalar.dot equation.1 coefs - equation.2) ^ 2

/-- Whether a solver gives one coefficient for each column of a system, and none
leave less squared residuals. -/
def SolvesLeastSquares (solver : LinearSolver ℚ) (rows : List (List ℚ))
    (values : List ℚ) : Prop :=
  ∃ coefs, solver rows values = some coefs ∧ (∀ row ∈ rows, coefs.length = row.length) ∧
    ∀ other, other.length = coefs.length →
      residualSquares rows values coefs ≤ residualSquares rows values other

/-- Whether a solver minimizes the squared residuals of the systems of a fit: the
equations of the sample tuples of a box, with any values at them. -/
def SolvesSamples (solver : LinearSolver ℚ) : Prop :=
  ∀ (b : Box ℚ) (n : ℕ), 2 ≤ n → ∀ y : List ℕ → ℚ,
    SolvesLeastSquares solver ((b.sampleTuples n).map b.designRow) ((b.sampleTuples n).map y)

/-! ## Coefficients and models -/

theorem sumOver_zip_lows (slopes : List ℚ) (es : List Extent) :
    sumOver (slopes.zip es) (fun pair => pair.1 * (pair.2.lo : ℚ)) =
      slopeSum slopes (es.map (·.lo)) := by
  induction slopes generalizing es with
  | nil => rfl
  | cons s slopes ih =>
      cases es with
      | nil => rfl
      | cons e es =>
          rw [List.map_cons, slopeSum, ← ih, List.zip_cons_cons, sumOver_cons]

namespace Extent

variable {es : List Extent} {tuple : List ℕ}

theorem length_spanCoords (h : List.Forall₂ Has es tuple) :
    (spanCoords es tuple : List ℚ).length = (es.filter fun e => !e.isPoint).length := by
  induction h with
  | nil => rfl
  | @cons e j es tuple _ _ ih =>
      rw [spanCoords]
      cases hpoint : e.isPoint <;> simp [hpoint, ih]

/-- The coefficients of the spanning extents make the same sum as the slopes of
all extents. -/
theorem dot_spanCoords (h : List.Forall₂ Has es tuple) (coefs : List ℚ) :
    Scalar.dot (spanCoords es tuple) coefs =
      slopeSum (spreadSlopes es coefs) tuple -
        slopeSum (spreadSlopes es coefs) (es.map (·.lo)) := by
  induction h generalizing coefs with
  | nil => simp [spanCoords, spreadSlopes, slopeSum, Scalar.dot_nil_left]
  | @cons e j es tuple hj _ ih =>
      rw [spanCoords, spreadSlopes, List.map_cons]
      split
      · rw [slopeSum, slopeSum, ih, Nat.cast_zero]
        ring
      · have hlo : ((j - e.lo : ℕ) : ℚ) = j - e.lo := Nat.cast_sub hj.1
        have hhead : Scalar.dot (((j - e.lo : ℕ) : ℚ) :: spanCoords es tuple) coefs =
            (j - e.lo) * coefs.headD ((0 : ℕ) : ℚ) +
              Scalar.dot (spanCoords es tuple) coefs.tail := by
          cases coefs with
          | nil => simp [Scalar.dot_nil_right]
          | cons c coefs => rw [Scalar.dot_cons, hlo, List.headD_cons, List.tail_cons]
        rw [slopeSum, slopeSum, hhead, ih]
        ring

/-- Every choice of slopes comes from coefficients of the spanning extents. -/
theorem SlopesFor.exists_spread {slopes : List ℚ} (h : SlopesFor es slopes) :
    ∃ coefs, coefs.length = (es.filter fun e => !e.isPoint).length ∧
      spreadSlopes es coefs = slopes := by
  induction h with
  | nil => exact ⟨[], rfl, rfl⟩
  | @cons e s es slopes hs _ ih =>
      obtain ⟨coefs, hlen, rfl⟩ := ih
      cases hpoint : e.isPoint with
      | true =>
          refine ⟨coefs, by simp [hpoint, hlen], ?_⟩
          rw [spreadSlopes, if_pos hpoint, hs (by simpa [Interval.isPoint] using hpoint),
            Nat.cast_zero]
      | false =>
          refine ⟨s :: coefs, by simp [hpoint, hlen], ?_⟩
          rw [spreadSlopes, if_neg (by simp [hpoint]), List.headD_cons, List.tail_cons]

theorem slopesFor_spread (es : List Extent) (coefs : List ℚ) :
    SlopesFor es (spreadSlopes es coefs) := by
  induction es generalizing coefs with
  | nil => exact List.Forall₂.nil
  | cons e es ih =>
      rw [spreadSlopes]
      split
      · exact List.Forall₂.cons (fun _ => Nat.cast_zero) (ih coefs)
      · rename_i hpoint
        refine List.Forall₂.cons (fun hend => absurd ?_ hpoint) (ih coefs.tail)
        simpa [Interval.isPoint] using hend

end Extent

namespace Box

variable {b : Box ℚ} {n : ℕ} {solver : LinearSolver ℚ}

/-- The linear model of coefficients. -/
def modelOf (b : Box ℚ) (coefs : List ℚ) : List ℚ × ℚ :=
  let slopes := Extent.spreadSlopes b.extents coefs.tail
  (slopes, coefs.headD 0 - slopeSum slopes b.lows)

theorem linearModel?_eq {tuples : List (List ℕ)} {values coefs : List ℚ}
    (h : solver (tuples.map b.designRow) values = some coefs) :
    b.linearModel? solver tuples values = some (b.modelOf coefs) := by
  simp only [linearModel?, h, Option.map_some, foldl_sub_eq, sumOver_zip_lows, modelOf,
    Nat.cast_zero]
  rfl

theorem dot_designRow {tuple : List ℕ} (h : b.contains tuple = true) {coefs : List ℚ}
    (hne : coefs ≠ []) :
    Scalar.dot (b.designRow tuple) coefs = modelValue (b.modelOf coefs) tuple := by
  obtain ⟨c, coefs, rfl⟩ := List.exists_cons_of_ne_nil hne
  rw [designRow, Scalar.dot_cons, Extent.dot_spanCoords (contains_eq_true_iff.mp h),
    Nat.cast_one, modelValue, modelOf, lows, List.headD_cons, List.tail_cons]
  ring

theorem residualSquares_eq {tuples : List (List ℕ)}
    (h : ∀ tuple ∈ tuples, b.contains tuple = true) (y : List ℕ → ℚ) {coefs : List ℚ}
    (hne : coefs ≠ []) :
    residualSquares (tuples.map b.designRow) (tuples.map y) coefs =
      squaredMiss tuples y (b.modelOf coefs) := by
  rw [residualSquares, List.zip_map', sumOver, List.map_map]
  refine sumOver_congr fun tuple htuple => ?_
  rw [Function.comp_apply, dot_designRow (h tuple htuple) hne]

/-- A least squares solution of the equations of the samples is the linear model
closest to their values. -/
theorem exists_linearModel?_closest (hn : 2 ≤ n) {y : List ℕ → ℚ}
    (hsolver : SolvesLeastSquares solver ((b.sampleTuples n).map b.designRow)
      ((b.sampleTuples n).map y)) :
    ∃ m, b.linearModel? solver (b.sampleTuples n) ((b.sampleTuples n).map y) = some m ∧
      Closest b.extents (b.sampleTuples n) y m := by
  obtain ⟨coefs, hsolve, hlen, hleast⟩ := hsolver
  have hin : ∀ tuple ∈ b.sampleTuples n, b.contains tuple = true :=
    fun tuple htuple => contains_of_mem_sampleTuples hn htuple
  have hlows := b.lows_mem_sampleTuples hn
  have hwidth : coefs.length = (b.extents.filter fun e => !e.isPoint).length + 1 := by
    rw [hlen _ (List.mem_map_of_mem hlows), designRow, List.length_cons,
      Extent.length_spanCoords (contains_eq_true_iff.mp (hin _ hlows))]
  have hne : coefs ≠ [] := List.ne_nil_of_length_eq_add_one hwidth
  refine ⟨b.modelOf coefs, linearModel?_eq hsolve, Extent.slopesFor_spread _ _, ?_⟩
  rintro ⟨slopes, intercept⟩ hslopes
  obtain ⟨others, hothers, rfl⟩ := hslopes.exists_spread
  set start := intercept + slopeSum (Extent.spreadSlopes b.extents others) b.lows
  have hmodel : b.modelOf (start :: others) =
      (Extent.spreadSlopes b.extents others, intercept) := by
    rw [modelOf, List.headD_cons, List.tail_cons, add_sub_cancel_right]
  rw [← hmodel, ← residualSquares_eq hin y hne,
    ← residualSquares_eq hin y (List.cons_ne_nil start others)]
  exact hleast _ (by rw [List.length_cons, hothers, hwidth])

end Box

end IntervalProgramming
