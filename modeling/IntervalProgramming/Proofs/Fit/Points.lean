import IntervalProgramming.Fit.Regressor
import IntervalProgramming.Proofs.Fit.Solver
import IntervalProgramming.Proofs.Fit.Visits
import IntervalProgramming.Proofs.Layout.Tiling

/-!
# Fitting a single tuple

A box of a single index tuple is sampled at that tuple only, and the objective
is evaluated at the continuous point behind it.  Over exact numbers a constant
fit, and a linear fit by a solver that minimizes the squared residuals, give the
box the value found there and no slope, so the fitted box has the value of the
objective in either reading.  The error of a fit is never negative.
-/

namespace IntervalProgramming

variable {α : Type} [Scalar α]

/-! ## The point behind a tuple -/

/-- The continuous point behind an index tuple. -/
def Domain.pointAt (d : Domain α) (tuple : List ℕ) : List α :=
  List.zipWith (·.value ·) d.vars tuple

/-- Each index of a tuple of the domain has the value of its coordinate of the
point. -/
theorem Domain.HasTuple.mapIdx_valueAt? {d : Domain α} {tuple : List ℕ}
    (h : d.HasTuple tuple) :
    tuple.mapIdx d.valueAt? = (d.pointAt tuple).map some := by
  rw [HasTuple, counts, List.forall₂_map_right_iff, List.forall₂_iff_get] at h
  obtain ⟨hlen, hlt⟩ := h
  apply List.ext_getElem
  · simp [pointAt, hlen]
  · intro k hk _
    rw [List.length_mapIdx] at hk
    have hkv : k < d.vars.length := by omega
    have hjk : tuple[k] < (d.vars[k]).count := hlt k hk hkv
    simp [pointAt, valueAt?, var?, hkv, hjk]

/-- Along the dimensions of a domain in order, a tuple has one index for each. -/
theorem Extent.indexAlong_range' {es : List Extent} {tuple : List ℕ} {start : ℕ}
    (hdims : es.map (·.dim) = List.range' start es.length)
    (hlen : tuple.length = es.length) (k : ℕ) :
    indexAlong (start + k) es tuple = tuple[k]? := by
  induction es generalizing tuple start k with
  | nil =>
      obtain rfl := List.length_eq_zero_iff.mp hlen
      rfl
  | cons e es ih =>
      obtain ⟨j, tuple, rfl⟩ := List.exists_cons_of_length_eq_add_one hlen
      simp only [List.map_cons, List.length_cons, List.range'_succ, List.cons.injEq]
        at hdims
      rw [indexAlong]
      cases k with
      | zero => rw [Nat.add_zero, if_pos hdims.1, List.getElem?_cons_zero]
      | succ k =>
          rw [if_neg (by omega), List.getElem?_cons_succ,
            ← ih hdims.2 (Nat.succ.inj hlen) k, Nat.add_right_comm, Nat.add_assoc]

namespace Domain.HasTuple

variable {d : Domain α} {es : List Extent} {tuple : List ℕ}

theorem length_eq_size (h : d.HasTuple tuple) : tuple.length = d.size := by
  rw [h.length_eq, counts, List.length_map, size]

theorem hasValues (h : d.HasTuple tuple) (hdims : es.map (·.dim) = List.range d.size) :
    d.HasValues es tuple := by
  have hvalue := h.mapIdx_valueAt?
  have hsize : es.length = d.size := by
    rw [← List.length_map (f := fun e : Extent => e.dim), hdims, List.length_range]
  refine List.forall₂_iff_get.mpr ⟨hsize.trans h.length_eq_size.symm, fun k hk hk' => ?_⟩
  have hdim : (es.map (·.dim))[k]? = some k := by
    rw [hdims, List.getElem?_range (hsize ▸ hk)]
  rw [List.getElem?_map, List.getElem?_eq_getElem hk, Option.map_some,
    Option.some_inj] at hdim
  have hentry := List.getElem_of_eq hvalue (by rwa [List.length_mapIdx])
  rw [List.getElem_mapIdx, List.getElem_map] at hentry
  change (d.valueAt? es[k].dim tuple[k]).isSome = true
  rw [hdim, hentry, Option.isSome_some]

/-- The point behind a tuple of the domain, seen from a box over all dimensions. -/
theorem pointOn_eq (h : d.HasTuple tuple) (hdims : es.map (·.dim) = List.range d.size) :
    d.pointOn es tuple = d.pointAt tuple := by
  have hsize : es.length = d.size := by
    rw [← List.length_map (f := fun e : Extent => e.dim), hdims, List.length_range]
  apply List.ext_getElem?
  intro k
  have hindex : Extent.indexAlong k es tuple = tuple[k]? := by
    rw [← Nat.zero_add k, Extent.indexAlong_range', Nat.zero_add]
    · rw [hdims, hsize, List.range_eq_range']
    · rw [h.length_eq_size, hsize]
  rw [pointOn, pointAt, List.getElem?_mapIdx, List.getElem?_zipWith, hindex]
  cases hv : d.vars[k]? with
  | none => rfl
  | some v =>
      have hk : k < tuple.length := by
        rw [h.length_eq_size]
        exact (List.getElem?_eq_some_iff.mp hv).1
      rw [List.getElem?_eq_getElem hk]
      rfl

end Domain.HasTuple

/-! ## Samples of a single tuple -/

namespace Box

theorem sampleTuples_of_isPoint {b : Box α} (h : b.isPoint = true) (n : ℕ) :
    b.sampleTuples n = [b.lows] := by
  rw [isPoint, List.all_eq_true] at h
  rw [sampleTuples, sampleAxes, lows]
  generalize b.extents = es at h
  induction es with
  | nil => rfl
  | cons e es ih =>
      obtain ⟨he, hes⟩ := List.forall_mem_cons.mp h
      have hsamples : e.samples n = [e.lo] := by
        rw [Interval.samples, if_pos he]
      simp only [List.map_cons, Tuple.lastFastest, ih hes, hsamples]
      rfl

/-- A box of a single tuple holds the tuple of its first indices only. -/
theorem eq_lows_of_contains {b : Box α} (h : b.isPoint = true) {tuple : List ℕ}
    (htuple : b.contains tuple = true) : tuple = b.lows := by
  rw [isPoint, List.all_eq_true] at h
  rw [contains_eq_true_iff] at htuple
  rw [lows]
  generalize b.extents = es at h htuple
  induction htuple with
  | nil => rfl
  | @cons e j es tuple hj _ ih =>
      obtain ⟨he, hes⟩ := List.forall_mem_cons.mp h
      have hpoint : e.lo = e.hi := by simpa [Interval.isPoint] using he
      have hj : j = e.lo := by
        obtain ⟨hlo, hhi⟩ := hj
        omega
      rw [List.map_cons, ← hj, ih hes]

theorem mem_slopes_setModel {b : Box ℚ} {slopes : List ℚ} {x s : ℚ}
    (h : s ∈ (b.setModel slopes x).slopes) : s ∈ slopes ∨ s = 0 := by
  rcases List.mem_append.mp h with h | h
  · exact Or.inl (List.mem_of_mem_take h)
  · exact Or.inr (List.eq_of_mem_replicate h)

/-- A model without slope has its intercept everywhere. -/
theorem evalAs_of_level {b : Box ℚ} (h : ∀ s ∈ b.slopes, s = 0) (tuple : List ℕ)
    (degree : Degree) : b.evalAs tuple degree = b.intercept := by
  cases degree with
  | constant => rfl
  | linear => rw [evalAs, eval_eq, slopeSum_zero h, add_zero]

/-! ## The fit of a single tuple -/

/-- A model without slopes is closest to a single value, so every solver that
minimizes the squared residuals finds the value and no slope. -/
theorem linearModel?_of_isPoint {b : Box ℚ} {solver : LinearSolver ℚ} {n : ℕ}
    (hsolver : SolvesSamples solver) (h : b.isPoint = true) (hn : 2 ≤ n) (y : ℚ) :
    b.linearModel? solver [b.lows] [y] = some (List.replicate b.extents.length 0, y) := by
  obtain ⟨m, hm, hclosest⟩ := exists_linearModel?_closest hn (hsolver b n hn fun _ => y)
  have hslopes : Extent.SlopesFor b.extents (List.replicate b.extents.length 0) :=
    List.forall₂_iff_get.mpr ⟨by simp, fun k _ _ _ => by simp⟩
  have hlevel : m = (List.replicate b.extents.length 0, y) := by
    refine hclosest.eq_of_linear hn hslopes fun tuple _ => ?_
    rw [modelValue, slopeSum_zero fun s hs => List.eq_of_mem_replicate hs, add_zero]
  rwa [sampleTuples_of_isPoint h, hlevel] at hm

end Box

namespace Regressor

/-- The fit of a single tuple of the domain has the value of the objective
there, read as a constant or as a linear model. -/
theorem evalAs_fit_of_isPoint {r : Regressor ℚ} (hsolver : SolvesSamples r.solver)
    (hn : 2 ≤ r.samples) {b : Box ℚ}
    (hdims : b.dimensions = List.range r.objective.domain.size)
    (hpoint : b.isPoint = true) (hlows : r.objective.domain.HasTuple b.lows)
    (tuple : List ℕ) (degree : Degree) :
    (r.fit b).box.evalAs tuple degree =
      r.objective.value (r.objective.domain.pointAt b.lows) := by
  have hnodup : b.dimensions.Nodup := by
    rw [hdims]
    exact List.nodup_range
  have hmove : r.objective.domain.moveTo b.extents b.lows r.objective.domain.lowCorner =
      r.objective.domain.pointAt b.lows :=
    ((r.objective.domain.atRest_lowCorner b.extents).moveTo hnodup
      (hlows.hasValues hdims)).trans (hlows.pointOn_eq hdims)
  have hfit : (r.fit b).box = r.model b [b.lows]
      [r.objective.value (r.objective.domain.pointAt b.lows)] := by
    simp only [fit, Box.sampleTuples_of_isPoint hpoint, Objective.visit,
      List.foldl_cons, List.foldl_nil, hmove]
    rfl
  rw [hfit]
  generalize r.objective.value (r.objective.domain.pointAt b.lows) = y
  unfold model
  cases r.degree with
  | constant =>
      have hmean : Scalar.mean [y] = y := by
        change y / ((1 : ℕ) : ℚ) = y
        rw [Nat.cast_one, div_one]
      refine (Box.evalAs_of_level (fun s hs => ?_) tuple degree).trans hmean
      exact (Box.mem_slopes_setModel hs).resolve_left List.not_mem_nil
  | linear =>
      simp only [Box.linearModel?_of_isPoint hsolver hpoint hn y]
      refine Box.evalAs_of_level (fun s hs => ?_) tuple degree
      exact (Box.mem_slopes_setModel hs).elim List.eq_of_mem_replicate id

theorem le_largestMiss (r : Regressor ℚ) (b : Box ℚ) (least : ℚ)
    (tuples : List (List ℕ)) (values : List ℚ) :
    least ≤ r.largestMiss b least tuples values := by
  unfold largestMiss
  induction tuples.zip values generalizing least with
  | nil => exact le_refl least
  | cons sample samples ih =>
      rw [List.foldl_cons]
      refine le_trans ?_ (ih _)
      dsimp only
      rw [Scalar.max_eq]
      exact le_max_left _ _

/-- The error of a fit is not negative. -/
theorem error_fit_nonneg (r : Regressor ℚ) (b : Box ℚ) : 0 ≤ (r.fit b).error := by
  have hstart : (0 : ℚ) ≤ ((0 : ℕ) : ℚ) := Nat.cast_zero.ge
  exact hstart.trans ((r.le_largestMiss _ _ _ _).trans (r.le_largestMiss _ _ _ _))

end Regressor

end IntervalProgramming
