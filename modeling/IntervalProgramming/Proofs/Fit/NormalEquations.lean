import Mathlib.Algebra.BigOperators.Field
import Mathlib.Data.List.GetD
import Mathlib.Tactic.LinearCombination
import IntervalProgramming.Proofs.Fit.Solver

/-!
# The normal equations

Coefficients whose residuals are orthogonal to one and to every coordinate leave
the least squared residuals.  If the coordinates are uncorrelated, the slope of
each may be found as if it were the only one, and the closed form solves the
normal equations.  On a sample lattice coordinates are uncorrelated, so the closed
form is a solver for the systems of a fit.
-/

namespace IntervalProgramming

/-! ## Simple regression -/

section Regression

variable {β : Type} {xs : List β} {x y : β → ℚ}

/-- The slope of the line closest to values `y` over a coordinate `x`. -/
def slopeOver (xs : List β) (x y : β → ℚ) : ℚ :=
  (sumOver xs (fun t => x t * y t) - sumOver xs x / xs.length * sumOver xs y) /
    (sumOver xs (fun t => x t * x t) - sumOver xs x / xs.length * sumOver xs x)

theorem sumOver_centered_mul (xs : List β) (x y : β → ℚ) (m : ℚ) :
    sumOver xs (fun t => (x t - m) * y t) =
      sumOver xs (fun t => x t * y t) - m * sumOver xs y := by
  have hterm : ∀ t, (x t - m) * y t = x t * y t + -m * y t := fun t => by ring
  simp only [hterm, sumOver_add, sumOver_mul_left]
  ring

/-- The sum of the squared distances of a coordinate from its mean. -/
theorem sumOver_centered_sq (hne : xs ≠ []) (x : β → ℚ) :
    sumOver xs (fun t => (x t - sumOver xs x / xs.length) ^ 2) =
      sumOver xs (fun t => x t * x t) - sumOver xs x / xs.length * sumOver xs x := by
  set mean := sumOver xs x / xs.length
  have hcancel : (xs.length : ℚ) * mean = sumOver xs x :=
    mul_div_cancel₀ _ (cast_length_ne_zero hne)
  have hterm : ∀ t, (x t - mean) ^ 2 = (x t - mean) * x t + (-mean * x t + mean * mean) :=
    fun t => by ring
  simp only [hterm, sumOver_add, sumOver_centered_mul, sumOver_mul_left, sumOver_const]
  linear_combination mean * hcancel

/-- The normal equation of a slope.  It holds as well where the coordinate is
constant: then both sides vanish. -/
theorem slopeOver_mul (hne : xs ≠ []) (x y : β → ℚ) :
    slopeOver xs x y *
        (sumOver xs (fun t => x t * x t) - sumOver xs x / xs.length * sumOver xs x) =
      sumOver xs (fun t => x t * y t) - sumOver xs x / xs.length * sumOver xs y := by
  have hsquares := sumOver_centered_sq hne x
  set mean := sumOver xs x / xs.length
  by_cases hzero : sumOver xs (fun t => x t * x t) - mean * sumOver xs x = 0
  · rw [hzero, mul_zero, ← sumOver_centered_mul]
    have hconst : ∀ t ∈ xs, x t - mean = 0 := fun t ht =>
      eq_zero_of_sumOver_sq_le (hsquares.trans hzero).le ht
    refine (sumOver_eq_zero fun t ht => ?_).symm
    rw [hconst t ht, zero_mul]
  · exact div_mul_cancel₀ _ hzero

/-- Slopes are measured in the unit of the values. -/
theorem slopeOver_div (xs : List β) (x y : β → ℚ) (u : ℚ) :
    slopeOver xs x (fun t => y t / u) = slopeOver xs x y / u := by
  have hterm : ∀ t, y t / u = u⁻¹ * y t := fun t => by rw [div_eq_inv_mul]
  have hprod : ∀ t, x t * (u⁻¹ * y t) = u⁻¹ * (x t * y t) := fun t => by ring
  simp only [slopeOver, hterm, hprod, sumOver_mul_left]
  ring

end Regression

/-! ## Several coordinates -/

section Normal

variable {β ι : Type} [Fintype ι] {xs : List β} {x : ι → β → ℚ} {y : β → ℚ}
  {s : ι → ℚ} {c : ℚ}

/-- How far a linear model lies above the values. -/
def residual (x : ι → β → ℚ) (y : β → ℚ) (s : ι → ℚ) (c : ℚ) (t : β) : ℚ :=
  c + ∑ k, s k * x k t - y t

/-- Residuals orthogonal to one and to all coordinates are the least. -/
theorem sumOver_residual_sq_le (hone : sumOver xs (residual x y s c) = 0)
    (hcoord : ∀ k, sumOver xs (fun t => residual x y s c t * x k t) = 0)
    (s' : ι → ℚ) (c' : ℚ) :
    sumOver xs (fun t => residual x y s c t ^ 2) ≤
      sumOver xs (fun t => residual x y s' c' t ^ 2) := by
  set r := residual x y s c
  set d : β → ℚ := fun t => (c' - c) + ∑ k, (s' k - s k) * x k t with hd
  have hother : ∀ t, residual x y s' c' t ^ 2 = r t ^ 2 + (2 * (r t * d t) + d t ^ 2) := by
    intro t
    have hdiff : residual x y s' c' t = r t + d t := by
      simp only [r, d, residual, sub_mul, Finset.sum_sub_distrib]
      ring
    rw [hdiff]
    ring
  have horthogonal : sumOver xs (fun t => r t * d t) = 0 := by
    have hterm : ∀ t, r t * d t =
        (c' - c) * r t + ∑ k, (s' k - s k) * (r t * x k t) := by
      intro t
      rw [hd, mul_add, Finset.mul_sum]
      refine congrArg₂ (· + ·) (mul_comm _ _) (Finset.sum_congr rfl fun k _ => ?_)
      ring
    simp only [hterm, sumOver_add, sumOver_finsetSum, sumOver_mul_left, hone, hcoord,
      mul_zero, Finset.sum_const_zero, add_zero]
  simp only [hother, sumOver_add, sumOver_mul_left, horthogonal, mul_zero, zero_add]
  exact le_add_of_nonneg_right (sumOver_nonneg fun t _ => sq_nonneg (d t))

/-- Two coordinates are uncorrelated along a list if the mean of their product is
the product of their means. -/
def Uncorrelated (xs : List β) (f g : β → ℚ) : Prop :=
  xs.length * sumOver xs (fun t => f t * g t) = sumOver xs f * sumOver xs g

/-- The intercept that goes with slopes. -/
def interceptOver (xs : List β) (x : ι → β → ℚ) (y : β → ℚ) (s : ι → ℚ) : ℚ :=
  (sumOver xs y - ∑ k, sumOver xs (x k) * s k) / xs.length

theorem sumOver_residual (hne : xs ≠ []) (x : ι → β → ℚ) (y : β → ℚ) (s : ι → ℚ) :
    sumOver xs (residual x y s (interceptOver xs x y s)) = 0 := by
  have hlen := cast_length_ne_zero hne
  have hcancel : (xs.length : ℚ) * interceptOver xs x y s =
      sumOver xs y - ∑ k, sumOver xs (x k) * s k := mul_div_cancel₀ _ hlen
  have hterm : ∀ t, residual x y s (interceptOver xs x y s) t =
      interceptOver xs x y s + (∑ k, s k * x k t + -1 * y t) := fun t => by
    rw [residual]
    ring
  have hcomm : ∑ k, s k * sumOver xs (x k) = ∑ k, sumOver xs (x k) * s k :=
    Finset.sum_congr rfl fun k _ => mul_comm _ _
  rw [sumOver_congr fun t _ => hterm t]
  simp only [sumOver_add, sumOver_const, sumOver_finsetSum, sumOver_mul_left, hcancel,
    hcomm]
  ring

/-- Slopes found one by one solve the normal equations of uncorrelated
coordinates. -/
theorem sumOver_residual_mul [DecidableEq ι] (hne : xs ≠ [])
    (hx : ∀ k l, k ≠ l → Uncorrelated xs (x k) (x l)) (y : β → ℚ) (k : ι) :
    sumOver xs (fun t =>
      residual x y (fun l => slopeOver xs (x l) y)
        (interceptOver xs x y fun l => slopeOver xs (x l) y) t * x k t) = 0 := by
  set s : ι → ℚ := fun l => slopeOver xs (x l) y
  have hlen := cast_length_ne_zero hne
  have hslope := slopeOver_mul hne (x k) y
  have hrest : ∑ l, (s l * sumOver xs (fun t => x l t * x k t) -
      s l * (sumOver xs (x l) * sumOver xs (x k) / xs.length)) =
      s k * (sumOver xs (fun t => x k t * x k t) -
        sumOver xs (x k) / xs.length * sumOver xs (x k)) := by
    rw [Finset.sum_eq_single k]
    · ring
    · intro l _ hl
      rw [eq_div_of_mul_eq hlen ((mul_comm _ _).trans (hx l k hl)), sub_self]
    · exact fun hk => absurd (Finset.mem_univ k) hk
  have hmeans : ∑ l, s l * (sumOver xs (x l) * sumOver xs (x k) / xs.length) =
      (∑ l, sumOver xs (x l) * s l) * (sumOver xs (x k) / xs.length) := by
    rw [Finset.sum_mul]
    exact Finset.sum_congr rfl fun l _ => by ring
  have hterm : ∀ t, residual x y s (interceptOver xs x y s) t * x k t =
      interceptOver xs x y s * x k t +
        (∑ l, s l * (x l t * x k t) + -1 * (x k t * y t)) := by
    intro t
    have hprod : ∑ l, s l * (x l t * x k t) = (∑ l, s l * x l t) * x k t := by
      rw [Finset.sum_mul]
      exact Finset.sum_congr rfl fun l _ => (mul_assoc _ _ _).symm
    rw [hprod, residual]
    ring
  rw [Finset.sum_sub_distrib, hmeans, hslope] at hrest
  simp only [hterm, sumOver_add, sumOver_mul_left, sumOver_finsetSum]
  rw [interceptOver]
  linear_combination hrest

end Normal

/-! ## The closed form -/

theorem Scalar.regressionSlope_map {β : Type} (xs : List β) (x y : β → ℚ) :
    regressionSlope (xs.map x) (xs.map y) = slopeOver xs x y := by
  simp only [regressionSlope, dot_map, sum_eq, List.length_map]
  rfl

theorem Scalar.fitUnit_ne_zero (values : List ℚ) : fitUnit values ≠ 0 := by
  have hunit : largeUnit ≠ 0 := by decide +kernel
  unfold fitUnit
  split
  · exact Nat.cast_ne_zero.mpr hunit
  · exact Nat.cast_ne_zero.mpr one_ne_zero

section ClosedForm

variable {β : Type} {xs : List β} {n : ℕ} {x : Fin n → β → ℚ} {y : β → ℚ}

/-- The equation for the intercept and the slopes of some coordinates. -/
def equation (x : Fin n → β → ℚ) (t : β) : List ℚ :=
  1 :: List.ofFn fun k => x k t

theorem coordColumns_map_equation (hne : xs ≠ []) (x : Fin n → β → ℚ) :
    coordColumns (xs.map (equation x)) = List.ofFn fun k => xs.map (x k) := by
  obtain ⟨t, ts, rfl⟩ := List.exists_cons_of_ne_nil hne
  apply List.ext_getElem
  · simp [coordColumns, equation]
  · intro k hk hk'
    rw [List.length_ofFn] at hk'
    simp [coordColumns, equation, hk']

/-- The closed form finds slopes one by one, and the intercept that goes with
them. -/
theorem leastSquares_eq (hne : xs ≠ []) (x : Fin n → β → ℚ) (y : β → ℚ) :
    let s := fun k => slopeOver xs (x k) y
    leastSquares (xs.map (equation x)) (xs.map y) =
      some (interceptOver xs x y s :: List.ofFn s) := by
  intro s
  set unit := Scalar.fitUnit (xs.map y) with hunit
  have hne' : unit ≠ 0 := Scalar.fitUnit_ne_zero (xs.map y)
  have hunits : (xs.map y).map (· / unit) = xs.map fun t => y t / unit :=
    List.map_map
  have hslope : ∀ k, slopeOver xs (x k) (fun t => y t / unit) = s k / unit :=
    fun k => slopeOver_div xs (x k) y unit
  have hsum : ∀ k, (xs.map (x k)).sum = sumOver xs (x k) := fun _ => rfl
  have htotal : (xs.map fun t => y t / unit).sum = sumOver xs y / unit := by
    simp only [div_eq_inv_mul]
    exact sumOver_mul_left xs unit⁻¹ y
  have hremainder : ∑ k, sumOver xs (x k) * (s k / unit) =
      (∑ k, sumOver xs (x k) * s k) / unit := by
    rw [Finset.sum_div]
    exact Finset.sum_congr rfl fun k _ => (mul_div_assoc _ _ _).symm
  simp only [leastSquares, hunits, ← hunit, coordColumns_map_equation hne,
    List.map_ofFn, Function.comp_def, Scalar.regressionSlope_map, Scalar.sum_eq, hslope, hsum,
    htotal, div_mul_cancel₀ _ hne', foldl_sub_eq, sumOver_ofFn, hremainder, List.length_map]
  rw [interceptOver, ← sub_div, div_right_comm, div_mul_cancel₀ _ hne']

theorem dot_equation (x : Fin n → β → ℚ) (c : ℚ) (s : Fin n → ℚ) (t : β) :
    Scalar.dot (equation x t) (c :: List.ofFn s) = c + ∑ k, s k * x k t := by
  have hslopes : Scalar.dot (List.ofFn fun k => x k t) (List.ofFn s) = ∑ k, s k * x k t := by
    have hmap := Scalar.dot_map (List.finRange n) (fun k => x k t) s
    rw [← List.ofFn_eq_map, ← List.ofFn_eq_map] at hmap
    rw [hmap, ← List.ofFn_id, sumOver_ofFn]
    exact Finset.sum_congr rfl fun k _ => mul_comm _ _
  rw [equation, Scalar.dot_cons, hslopes, one_mul]

theorem residualSquares_equation (xs : List β) (x : Fin n → β → ℚ) (y : β → ℚ) (c : ℚ)
    (s : Fin n → ℚ) :
    residualSquares (xs.map (equation x)) (xs.map y) (c :: List.ofFn s) =
      sumOver xs fun t => residual x y s c t ^ 2 := by
  rw [residualSquares, List.zip_map', sumOver, List.map_map]
  refine sumOver_congr fun t _ => ?_
  rw [Function.comp_apply, dot_equation, residual]

/-- The closed form is a least squares solution where the coordinates are
uncorrelated. -/
theorem solvesLeastSquares_equation (hne : xs ≠ [])
    (hx : ∀ k l, k ≠ l → Uncorrelated xs (x k) (x l)) (y : β → ℚ) :
    SolvesLeastSquares leastSquares (xs.map (equation x)) (xs.map y) := by
  refine ⟨_, leastSquares_eq hne x y, ?_, ?_⟩
  · intro row hrow
    obtain ⟨t, -, rfl⟩ := List.mem_map.mp hrow
    simp [equation]
  · intro other hother
    obtain ⟨c, slopes, rfl⟩ := List.exists_cons_of_length_eq_add_one hother
    obtain ⟨s, rfl⟩ : ∃ s : Fin n → ℚ, slopes = List.ofFn s := by
      have hlen : slopes.length = n := by simpa using hother
      subst hlen
      exact ⟨fun k => slopes[k], List.ofFn_getElem.symm⟩
    rw [residualSquares_equation, residualSquares_equation]
    exact sumOver_residual_sq_le (sumOver_residual hne x y _)
      (sumOver_residual_mul hne hx y) s c

end ClosedForm

/-! ## Coordinates on a lattice -/

theorem sumOver_lastFastest_cons {β : Type} (axis : List β) (axes : List (List β))
    (f : List β → ℚ) :
    sumOver (Tuple.lastFastest (axis :: axes)) f =
      sumOver axis fun x => sumOver (Tuple.lastFastest axes) fun tuple => f (x :: tuple) := by
  rw [Tuple.lastFastest]
  induction axis with
  | nil => rfl
  | cons x axis ih =>
      rw [sumOver_cons, ← ih, List.flatMap_cons, sumOver, List.map_append, List.sum_append,
        List.map_map]
      rfl

section Lattice

variable {axis : List ℕ} {axes : List (List ℕ)} {f g : List ℕ → ℚ}

theorem Uncorrelated.symm {β : Type} {xs : List β} {f g : β → ℚ} (h : Uncorrelated xs f g) :
    Uncorrelated xs g f := by
  unfold Uncorrelated at h ⊢
  simp only [mul_comm (g _)]
  rw [h, mul_comm]

theorem cast_length_lastFastest_cons (axis : List ℕ) (axes : List (List ℕ)) :
    ((Tuple.lastFastest (axis :: axes)).length : ℚ) =
      axis.length * (Tuple.lastFastest axes).length := by
  simp only [Tuple.length_lastFastest, List.map_cons, List.prod_cons, Nat.cast_mul]

/-- On a product, a function of the first coordinate and a function of the other
ones are uncorrelated. -/
theorem uncorrelated_of_first (f₀ : ℕ → ℚ) (g₁ : List ℕ → ℚ)
    (hf : ∀ j tuple, f (j :: tuple) = f₀ j) (hg : ∀ j tuple, g (j :: tuple) = g₁ tuple) :
    Uncorrelated (Tuple.lastFastest (axis :: axes)) f g := by
  simp only [Uncorrelated, cast_length_lastFastest_cons, sumOver_lastFastest_cons, hf, hg,
    sumOver_mul_left, sumOver_const]
  simp only [mul_comm (f₀ _), sumOver_mul_left]
  ring

/-- Functions of the coordinates after the first are uncorrelated on a product if
they are on the product without the first axis. -/
theorem Uncorrelated.of_rest {f₁ g₁ : List ℕ → ℚ}
    (h : Uncorrelated (Tuple.lastFastest axes) f₁ g₁)
    (hf : ∀ j tuple, f (j :: tuple) = f₁ tuple) (hg : ∀ j tuple, g (j :: tuple) = g₁ tuple) :
    Uncorrelated (Tuple.lastFastest (axis :: axes)) f g := by
  unfold Uncorrelated at h ⊢
  simp only [cast_length_lastFastest_cons, sumOver_lastFastest_cons, hf, hg, sumOver_const]
  linear_combination (axis.length : ℚ) * axis.length * h

end Lattice

namespace Extent

/-- Two coordinates of the spanning extents are uncorrelated on a sample lattice. -/
theorem uncorrelated_spanCoords (es : List Extent) (n : ℕ) {k l : ℕ} (hkl : k ≠ l) :
    Uncorrelated (Tuple.lastFastest (es.map (·.samples n)))
      (fun tuple => (spanCoords es tuple : List ℚ).getD k 0)
      (fun tuple => (spanCoords es tuple : List ℚ).getD l 0) := by
  induction es generalizing k l with
  | nil => simp [Uncorrelated, sumOver, spanCoords, Tuple.lastFastest]
  | cons e es ih =>
      rw [List.map_cons]
      cases hpoint : e.isPoint with
      | true =>
          refine (ih hkl).of_rest (fun j tuple => ?_) fun j tuple => ?_
          · rw [spanCoords, if_pos hpoint]
          · rw [spanCoords, if_pos hpoint]
      | false =>
          have hcons : ∀ j tuple, (spanCoords (e :: es) (j :: tuple) : List ℚ) =
              ((j - e.lo : ℕ) : ℚ) :: spanCoords es tuple := fun j tuple => by
            rw [spanCoords, if_neg (by simp [hpoint])]
          have hfirst : ∀ l, Uncorrelated
              (Tuple.lastFastest (e.samples n :: es.map (·.samples n)))
              (fun tuple => (spanCoords (e :: es) tuple : List ℚ).getD 0 0)
              (fun tuple => (spanCoords (e :: es) tuple : List ℚ).getD (l + 1) 0) := by
            intro l
            refine uncorrelated_of_first (fun j => ((j - e.lo : ℕ) : ℚ))
              (fun tuple => (spanCoords es tuple : List ℚ).getD l 0)
              (fun j tuple => ?_) fun j tuple => ?_
            · rw [hcons, List.getD_cons_zero]
            · rw [hcons, List.getD_cons_succ]
          cases k with
          | zero =>
              cases l with
              | zero => exact absurd rfl hkl
              | succ l => exact hfirst l
          | succ k =>
              cases l with
              | zero => exact (hfirst k).symm
              | succ l =>
                  refine (ih fun h => hkl (congrArg Nat.succ h)).of_rest
                    (fun j tuple => ?_) fun j tuple => ?_
                  · rw [hcons, List.getD_cons_succ]
                  · rw [hcons, List.getD_cons_succ]

end Extent

/-- The closed form minimizes the squared residuals of the systems of a fit. -/
theorem solvesSamples_leastSquares : SolvesSamples leastSquares := by
  intro b n hn y
  have hne : b.sampleTuples n ≠ [] := List.ne_nil_of_mem (b.lows_mem_sampleTuples hn)
  have hin : ∀ tuple ∈ b.sampleTuples n, b.contains tuple = true :=
    fun tuple htuple => Box.contains_of_mem_sampleTuples hn htuple
  set x : Fin (b.extents.filter fun e => !e.isPoint).length → List ℕ → ℚ :=
    fun k tuple => (Extent.spanCoords b.extents tuple).getD k 0
  have hrows : (b.sampleTuples n).map b.designRow = (b.sampleTuples n).map (equation x) := by
    refine List.map_congr_left fun tuple htuple => ?_
    have hlen := Extent.length_spanCoords (Box.contains_eq_true_iff.mp (hin tuple htuple))
    rw [Box.designRow, equation, Nat.cast_one, List.cons.injEq]
    refine ⟨rfl, List.ext_getElem (by rw [hlen, List.length_ofFn]) fun k hk _ => ?_⟩
    rw [List.getElem_ofFn]
    exact (List.getD_eq_getElem _ _ hk).symm
  rw [hrows]
  refine solvesLeastSquares_equation hne (fun k l hkl => ?_) y
  exact Extent.uncorrelated_spanCoords b.extents n fun h => hkl (Fin.ext h)

end IntervalProgramming
