import IntervalProgramming.Proofs.Fit.Visits
import IntervalProgramming.Proofs.Fit.Words
import IntervalProgramming.Proofs.Refine.Cuts
import IntervalProgramming.Proofs.Scalar.Maximum

/-!
# The error of a fit

A fit evaluates its objective once at each tuple of the check lattice of a box,
and its error is the greatest distance there between the objective and the
fitted model.  This does not depend on the solver that finds the linear model.
-/

namespace IntervalProgramming

variable {α : Type} [Scalar α]

/-! ## The values behind a fit -/

namespace Regressor

variable {r : Regressor α} {b : Box α}

/-- The distance between a box and the objective at a tuple. -/
def missAt (r : Regressor α) (b : Box α) (tuple : List ℕ) : α :=
  Scalar.abs (b.evalAs tuple r.degree - r.objective.valueOn b.extents tuple)

theorem largestMiss_valueOn (r : Regressor α) (b : Box α) (least : α)
    (tuples : List (List ℕ)) :
    r.largestMiss b least tuples (tuples.map (r.objective.valueOn b.extents)) =
      (tuples.map (r.missAt b)).foldl Scalar.max least := by
  unfold largestMiss
  induction tuples generalizing least with
  | nil => rfl
  | cons tuple tuples ih =>
      rw [List.map_cons, List.zip_cons_cons, List.foldl_cons, ih, List.map_cons,
        List.foldl_cons]
      rfl

theorem contains_of_mem_visited (hn : 2 ≤ r.samples) {tuple : List ℕ}
    (h : tuple ∈ r.visited b) : b.contains tuple = true :=
  Box.contains_of_mem_sampleTuples (by omega) ((r.perm_visited hn b).mem_iff.mp h)

/-- The values of the objective that a fit takes, in order. -/
def seen (r : Regressor α) (b : Box α) : List α :=
  let first := r.objective.visit b.extents (b.sampleTuples r.samples)
    r.objective.domain.lowCorner
  first.1 ++ (r.objective.visit b.extents (r.checkTuples b) first.2).1

/-- Both visits of a fit find the values behind their tuples. -/
theorem exists_visits (hb : r.objective.domain.Encloses b) (hn : 2 ≤ r.samples) :
    ∃ last final,
      r.objective.visit b.extents (b.sampleTuples r.samples)
          r.objective.domain.lowCorner =
        ((b.sampleTuples r.samples).map (r.objective.valueOn b.extents), last) ∧
      r.objective.visit b.extents (r.checkTuples b) last =
        ((r.checkTuples b).map (r.objective.valueOn b.extents), final) := by
  have hvalues : ∀ tuple ∈ r.visited b, r.objective.domain.HasValues b.extents tuple :=
    fun tuple htuple => hb.hasValues (contains_of_mem_visited hn htuple)
  obtain ⟨hsamples, hchecks⟩ := List.forall_mem_append.mp hvalues
  obtain ⟨last, hfirst, hrest⟩ := Objective.visit_eq hb.nodup hsamples
    (r.objective.domain.atRest_lowCorner b.extents)
  obtain ⟨final, hsecond, -⟩ := Objective.visit_eq hb.nodup hchecks hrest
  exact ⟨last, final, hfirst, hsecond⟩

theorem seen_eq (hb : r.objective.domain.Encloses b) (hn : 2 ≤ r.samples) :
    r.seen b = (r.visited b).map (r.objective.valueOn b.extents) := by
  obtain ⟨last, final, hfirst, hsecond⟩ := exists_visits hb hn
  simp only [seen, hfirst, hsecond, visited, List.map_append]

/-- The box with the model of the values behind the samples. -/
def fitted (r : Regressor α) (b : Box α) : Box α :=
  r.model b (b.sampleTuples r.samples)
    ((b.sampleTuples r.samples).map (r.objective.valueOn b.extents))

/-- A fit is made of the values behind the tuples it visits, one evaluation for
each. -/
theorem fit_eq (hb : r.objective.domain.Encloses b) (hn : 2 ≤ r.samples) :
    r.fit b =
      { box := r.fitted b
        error := ((r.visited b).map (r.missAt (r.fitted b))).foldl Scalar.max ((0 : ℕ) : α)
        regressor :=
          { r with fits := r.fits + 1, evals := r.evals + (r.visited b).length } } := by
  obtain ⟨last, final, hfirst, hsecond⟩ := exists_visits hb hn
  have hbox : (r.fit b).box = r.fitted b := by
    simp only [fit, hfirst, fitted]
  have hextents : (r.fitted b).extents = b.extents := by
    rw [← hbox, extents_fit]
  have hsampled := r.largestMiss_valueOn (r.fitted b) ((0 : ℕ) : α)
    (b.sampleTuples r.samples)
  rw [hextents] at hsampled
  have hchecked := fun least => r.largestMiss_valueOn (r.fitted b) least
    (r.checkTuples b)
  rw [hextents] at hchecked
  simp only [fit, hfirst, hsecond]
  rw [← fitted, hsampled, hchecked, visited, List.map_append, List.foldl_append,
    List.length_append, Nat.add_assoc]

end Regressor

/-! ## What a fit measures and counts -/

namespace Regressor

/-- What a fit of a box measures and counts.  The samples along each extent are
on the check samples; the error is the greatest distance on the check lattice;
the fit is counted, and so is each value it takes, one at each check tuple. -/
structure Measures (r : Regressor ℚ) (b : Box ℚ) (res : FitResult ℚ) : Prop where
  samples : ∀ e ∈ b.extents, e.SpreadOver r.samples (e.samples r.samples)
  checks : ∀ e ∈ b.extents,
    e.SpreadOver (2 * r.samples - 1) (e.samples (2 * r.samples - 1))
  nested : ∀ e ∈ b.extents, e.samples r.samples ⊆ e.samples (2 * r.samples - 1)
  extents : res.box.extents = b.extents
  error : IsGreatest
    {x | ∃ tuple,
      List.Forall₂ (fun e j => j ∈ e.samples (2 * r.samples - 1)) b.extents tuple ∧
      |res.box.evalAs tuple r.degree - r.objective.valueOn b.extents tuple| = x}
    res.error
  fits : res.regressor.fits = r.fits + 1
  seen : r.seen b = (r.visited b).map (r.objective.valueOn b.extents)
  visits : res.regressor.evals = r.evals + (r.seen b).length
  evals : res.regressor.evals = r.evals +
    (b.extents.map fun e => min (2 * r.samples - 1) (e.span + 1)).prod
  once : (r.visited b).Nodup
  visited : ∀ tuple, tuple ∈ r.visited b ↔
    List.Forall₂ (fun e j => j ∈ e.samples (2 * r.samples - 1)) b.extents tuple

variable {r : Regressor ℚ} {b : Box ℚ}

theorem isGreatest_error_fit (hb : r.objective.domain.Encloses b) (hn : 2 ≤ r.samples) :
    IsGreatest {x | ∃ tuple ∈ r.visited b, r.missAt (r.fit b).box tuple = x}
      (r.fit b).error := by
  rw [fit_eq hb hn]
  set fitted := r.fitted b
  obtain ⟨hmem, hbound⟩ := Scalar.isGreatest_foldl_max
    ((r.visited b).map (r.missAt fitted)) ((0 : ℕ) : ℚ)
  have hnonneg : ∀ tuple, ((0 : ℕ) : ℚ) ≤ r.missAt fitted tuple := by
    intro tuple
    rw [missAt, Scalar.abs_eq, Nat.cast_zero]
    exact abs_nonneg _
  have hlows : b.lows ∈ r.visited b := by
    rw [(r.perm_visited hn b).mem_iff]
    exact b.lows_mem_sampleTuples (by omega)
  constructor
  · rcases List.mem_cons.mp hmem with hzero | hmem
    · refine ⟨b.lows, hlows, le_antisymm ?_ ?_⟩
      · exact hbound (List.mem_cons_of_mem _ (List.mem_map_of_mem hlows))
      · exact hzero.le.trans (hnonneg b.lows)
    · exact List.mem_map.mp hmem
  · rintro x ⟨tuple, htuple, rfl⟩
    exact hbound (List.mem_cons_of_mem _ (List.mem_map_of_mem htuple))

theorem measures_fit (hb : r.objective.domain.Encloses b) (hn : 2 ≤ r.samples) :
    r.Measures b (r.fit b) := by
  have hfine : 2 ≤ 2 * r.samples - 1 := by omega
  have hvisited : ∀ tuple, tuple ∈ r.visited b ↔
      List.Forall₂ (fun e j => j ∈ e.samples (2 * r.samples - 1)) b.extents tuple := by
    intro tuple
    rw [(r.perm_visited hn b).mem_iff, Box.mem_sampleTuples]
  have hbox : (r.fit b).box.extents = b.extents := r.extents_fit b
  have herror := isGreatest_error_fit hb hn
  simp only [hvisited, missAt, hbox, Scalar.abs_eq] at herror
  refine
    { samples := fun e _ => e.spreadOver_samples hn
      checks := fun e _ => e.spreadOver_samples hfine
      nested := fun e _ => e.samples_subset hn
      extents := hbox
      error := herror
      fits := rfl
      seen := seen_eq hb hn
      visits := ?_
      evals := ?_
      once := (r.perm_visited hn b).nodup_iff.mpr (b.nodup_sampleTuples hfine)
      visited := hvisited }
  · rw [fit_eq hb hn, seen_eq hb hn, List.length_map]
  · rw [fit_eq hb hn, (r.perm_visited hn b).length_eq, b.length_sampleTuples hfine]

/-- A fit by any solver has a result in words, and measures the greatest distance
on the check lattice and counts one evaluation for each of its tuples. -/
theorem fit_measures (hb : r.objective.domain.Encloses b) (hn : 2 ≤ r.samples)
    (hword : r.samples < 2 ^ 63) :
    r.fitInWords? b = some (r.fit b) ∧ r.Measures b (r.fit b) :=
  ⟨InWords.fitInWords?_eq ⟨hn, hword⟩ b, measures_fit hb hn⟩

/-- The product of the coordinates of the plate, fitted by linear models. -/
def plateProduct : Regressor ℚ :=
  forObjective leastSquares ⟨Domain.plate, List.prod⟩ .linear 3

/-- The columns of the plate but the first and the last. -/
def innerColumns : Interval :=
  { lo := 1, hi := 8 }

/-- The plate without its first and its last column. -/
def plateMiddle : Box ℚ :=
  Box.ofIntervals [innerColumns, { lo := 0, hi := 2 }]

/-- Five columns and three rows of the middle of the plate are visited. -/
theorem fit_measures_plate :
    Domain.plate.Encloses plateMiddle ∧ 2 ≤ 3 ∧ 3 < 2 ^ 63 ∧
      plateProduct.fitInWords? plateMiddle = some (plateProduct.fit plateMiddle) ∧
      plateProduct.Measures plateMiddle (plateProduct.fit plateMiddle) ∧
      (plateProduct.fit plateMiddle).regressor.evals = 15 := by
  have hb : Domain.plate.Encloses plateMiddle := ⟨by decide, by decide⟩
  obtain ⟨hfit, h⟩ := fit_measures (r := plateProduct) hb (by decide) (by decide)
  exact ⟨hb, by decide, by decide, hfit, h, h.evals⟩

end Regressor

end IntervalProgramming
