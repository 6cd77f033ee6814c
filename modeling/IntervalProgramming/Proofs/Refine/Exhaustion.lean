import IntervalProgramming.Proofs.Build.Result
import IntervalProgramming.Proofs.Fit.NormalEquations
import IntervalProgramming.Proofs.Fit.Points
import IntervalProgramming.Proofs.Layout.Partition
import IntervalProgramming.Proofs.Layout.Volume
import IntervalProgramming.Proofs.Refine.Words

/-!
# Refinement down to single tuples

No error is below zero, so under a negative threshold a refinement goes on as
long as a box can be cut.  Each cut makes one box more, and a partition has no
more boxes than the domain has tuples.  So a budget of the missing boxes is
spent to the last cut, and then every box is a single tuple that was fitted
exactly: the map is the objective.  The solver that finds linear models has to
minimize the squared residuals.
-/

namespace IntervalProgramming

namespace Refinement

variable {m : PiecewiseMap ℚ} {r : Regressor ℚ} {pinnedFrom budget : ℕ} {threshold : ℚ}
  {s : Refinement ℚ}

/-- From an evaluation without pinned boxes on, every position is due. -/
theorem RunOf.due (h : RunOf m r m.size s) :
    InStep r (fun _ => True) (fun _ => True) s := by
  apply h.inStep.congr
  · exact fun _ _ => id
  · exact fun ix _ => iff_of_true trivial (Nat.lt_or_ge ix m.size)

/-- A queue in step is empty when no box can be cut. -/
theorem InStep.isEmpty_queue {fitted due : ℕ → Prop} (h : InStep r fitted due s)
    (hpoints : ∀ b ∈ s.map.boxes, b.isPoint = true) : s.queue.isEmpty = true := by
  rw [RefineQueue.isEmpty, List.isEmpty_iff, List.eq_nil_iff_forall_not_mem]
  intro entry hentry
  obtain ⟨-, b, hb, hpoint, -⟩ := h.sound entry hentry
  rw [hpoints b (Array.mem_of_getElem? hb)] at hpoint
  cases hpoint

theorem RunOf.partitions {d : Domain ℚ} (h : RunOf m r pinnedFrom s)
    (hm : m.Partitions d) : s.map.Partitions d :=
  ⟨h.domain.trans hm.domain, h.cutFrom.partitionedBy hm.boxes⟩

/-- Under a negative threshold a refinement that ends before its budget is spent
leaves no box that can be cut. -/
theorem RunOf.isPoint_of_neg {d : Domain ℚ} (h : RunOf m r m.size s)
    (hm : m.Partitions d) (hdomain : (r.objective.domain == d) = true)
    (hthreshold : threshold < 0) (hcuts : (s.refine budget threshold).1 < budget) :
    ∀ b ∈ (s.refine budget threshold).2.map.boxes, b.isPoint = true := by
  have hnow := h.partitions hm
  intro b hb
  obtain ⟨ix, hix⟩ := Array.mem_iff_getElem?.mp hb
  by_contra hpoint
  rw [Bool.not_eq_true] at hpoint
  have herror : (r.fit b).error ≤ threshold := by
    apply h.due.error_le_of_refine ?_ (fun _ _ => trivial) (Nat.zero_lt_of_lt hcuts)
      hnow.isEmpty_eq_false hcuts hix hpoint trivial
    rw [hnow.domain]
    exact hdomain
  exact absurd ((r.error_fit_nonneg b).trans herror) (not_le.mpr hthreshold)

/-- Under a negative threshold a refinement of a partition makes all the cuts
that are missing to one box for each tuple. -/
theorem RunOf.cuts_refine_of_neg {d : Domain ℚ} (h : RunOf m r m.size s)
    (hm : m.Partitions d) (hdomain : (r.objective.domain == d) = true)
    (hthreshold : threshold < 0) (hbudget : d.counts.prod - s.map.size ≤ budget) :
    (s.refine budget threshold).1 = d.counts.prod - s.map.size ∧
      ∀ b ∈ (s.refine budget threshold).2.map.boxes, b.isPoint = true := by
  have hpart := (h.refine budget threshold).partitions hm
  obtain ⟨hcuts, hsize⟩ := size_map_refine s budget threshold
  have hle := hpart.size_le
  have hfull : (s.refine budget threshold).2.map.size = d.counts.prod := by
    rcases Nat.lt_or_ge (s.refine budget threshold).1 budget with hlt | hge
    · exact hpart.size_eq_iff.mpr (h.isPoint_of_neg hm hdomain hthreshold hlt)
    · omega
  exact ⟨by omega, hpart.size_eq_iff.mp hfull⟩

/-- Where every box is a single tuple, a fitted map has the value of the
objective at each tuple. -/
theorem RunOf.eval?_of_isPoint {d : Domain ℚ} (h : RunOf m r m.size s)
    (hm : m.Partitions d) (hsolver : SolvesSamples r.solver) (hn : 2 ≤ r.samples)
    (hobjective : r.objective.domain = d)
    (hpoints : ∀ b ∈ s.map.boxes, b.isPoint = true) {tuple : List ℕ}
    (htuple : d.HasTuple tuple) :
    s.map.eval? tuple = some (r.objective.value (d.pointAt tuple)) := by
  have hpart := h.partitions hm
  obtain ⟨b, hb, hbt⟩ := hpart.holds htuple
  obtain ⟨ix, hix⟩ := Array.mem_iff_getElem?.mp hb
  have hpoint := hpoints b hb
  obtain rfl := Box.eq_lows_of_contains hpoint hbt
  have hdims := hpart.boxes.full b (Array.mem_toList_iff.mpr hb)
  subst hobjective
  have hvalue := Regressor.evalAs_fit_of_isPoint hsolver hn hdims hpoint htuple b.lows
    s.map.degree
  rw [h.inStep.model ix b hix trivial] at hvalue
  rw [PiecewiseMap.eval?_of_contains hpart.isFull hpart.isDisjoint hb hbt, hvalue]

/-- Full refinement reproduces the objective.  On a map that partitions the
domain of the objective, an evaluation and a refinement under a negative
threshold, with a budget for the boxes that are missing to one for each tuple,
makes exactly that many cuts and ends with single tuples only and an empty
queue.  At each tuple the map then has the value of the objective at the
continuous point behind the tuple. -/
theorem refine_reproduces (hsolver : SolvesSamples r.solver) (hn : 2 ≤ r.samples)
    (hword : r.samples < 2 ^ 63) (hm : m.Partitions r.objective.domain)
    (hthreshold : threshold < 0)
    (hbudget : r.objective.domain.counts.prod - m.size ≤ budget) :
    ∃ start cuts last, evaluateInWords? m r = some start ∧
      start.refineInWords? budget threshold = some (cuts, last) ∧
      m.size + cuts = r.objective.domain.counts.prod ∧
      (∀ b ∈ last.map.boxes, b.isPoint = true) ∧
      last.queue.isEmpty = true ∧
      ∀ tuple, r.objective.domain.HasTuple tuple →
        ∃ point, tuple.mapIdx r.objective.domain.valueAt? = point.map some ∧
          last.map.eval? tuple = some (r.objective.value point) := by
  have hself := r.objective.domain.beq_self
  have hwords : r.InWords := ⟨hn, hword⟩
  have hrun : RunOf m r m.size (evaluate m r) :=
    runOf_evaluatePinned (by rwa [hm.domain]) m.size
  have hsize : (evaluate m r).map.size = m.size := size_map_evaluatePinned m r m.size
  have hmissing : r.objective.domain.counts.prod - (evaluate m r).map.size ≤ budget := by
    rwa [hsize]
  obtain ⟨hcuts, hpoints⟩ := hrun.cuts_refine_of_neg hm hself hthreshold hmissing
  have hlast := hrun.refine budget threshold
  have hle := hm.size_le
  refine ⟨evaluate m r, ((evaluate m r).refine budget threshold).1, _,
    evaluatePinnedInWords?_eq hwords m m.size,
    refineInWords?_eq (hwords.of_fitsLike hrun.inStep.fits) budget threshold, ?_, hpoints,
    hlast.inStep.isEmpty_queue hpoints, ?_⟩
  · omega
  · intro tuple htuple
    exact ⟨_, htuple.mapIdx_valueAt?,
      hlast.eval?_of_isPoint hm hsolver hn rfl hpoints htuple⟩

/-- The product of the coordinates of the plate, fitted linearly by the closed form
on three pieces of four columns, the last one truncated: 27 cuts leave thirty single
tuples, and the map has the values of the product. -/
theorem refine_reproduces_plate :
    let r := Regressor.forObjective leastSquares Objective.onPlate .linear 3
    SolvesSamples r.solver ∧ ∃ m start last,
      PiecewiseMap.uniform? Domain.plate (Box.onPlate 0 3 2) .linear = some m ∧
      m.size = 3 ∧ evaluateInWords? m r = some start ∧
      start.refineInWords? 27 (-1) = some (27, last) ∧
      last.queue.isEmpty = true ∧ last.map.eval? [7, 2] = some 14 := by
  intro r
  obtain ⟨m, hm, hsize⟩ : ∃ m,
      PiecewiseMap.uniform? Domain.plate (Box.onPlate 0 3 2) .linear = some m ∧
        m.size = 3 := by
    rw [← Option.map_eq_some_iff]
    decide +kernel
  have hpart : m.Partitions r.objective.domain := by
    obtain ⟨hdomain, hboxes⟩ := PiecewiseMap.partitionedBy_uniform? hm
    exact ⟨hdomain, hboxes⟩
  have htotal : r.objective.domain.counts.prod = 30 := by decide
  obtain ⟨start, cuts, last, hstart, hrefine, hcuts, -, hqueue, hvalues⟩ :=
    refine_reproduces solvesSamples_leastSquares (by decide) (by decide) hpart
      (by norm_num : (-1 : ℚ) < 0)
      (by rw [htotal, hsize] : r.objective.domain.counts.prod - m.size ≤ 27)
  obtain ⟨point, hpoint, hvalue⟩ := hvalues [7, 2] (List.Forall₂.cons (by decide)
    (List.Forall₂.cons (by decide) List.Forall₂.nil))
  have hbehind : [7, 2].mapIdx r.objective.domain.valueAt? = [(7 : ℚ), 2].map some := by
    decide +kernel
  obtain rfl : point = [7, 2] :=
    List.map_injective_iff.mpr (Option.some_injective ℚ) (hpoint.symm.trans hbehind)
  have hproduct : r.objective.value [7, 2] = 14 := by decide +kernel
  obtain rfl : cuts = 27 := by omega
  exact ⟨solvesSamples_leastSquares, m, start, last, hm, hsize, hstart, hrefine, hqueue,
    hproduct ▸ hvalue⟩

end Refinement

end IntervalProgramming
