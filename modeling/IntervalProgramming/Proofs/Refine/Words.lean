import IntervalProgramming.Proofs.Fit.Words
import IntervalProgramming.Proofs.Refine.Budget

/-!
# Refinement in words

Fits are all that a refinement does with the number of check samples, and a fit
does not change that number.  So a refinement in words gives what the refinement
gives, as long as the number is a count word.  If it is not, an evaluation has no
result: the first box of the map is fitted.
-/

namespace IntervalProgramming

variable {α : Type} [Scalar α]

theorem Regressor.InWords.of_fitsLike {r r' : Regressor α} (h : r.InWords)
    (hlike : r'.FitsLike r) : r'.InWords := by
  constructor
  · rw [hlike.samples]
    exact h.two_le
  · rw [hlike.samples]
    exact h.lt

namespace Refinement

/-! ## Evaluation -/

theorem fitsLike_fitBox (pinnedFrom : ℕ) (s : Refinement α) (ix : ℕ) :
    (fitBox pinnedFrom s ix).regressor.FitsLike s.regressor := by
  unfold fitBox
  split
  · exact .refl _
  · exact s.regressor.fitsLike_fit _

theorem fitBoxInWords?_eq {s : Refinement α} (h : s.regressor.InWords)
    (pinnedFrom ix : ℕ) :
    fitBoxInWords? pinnedFrom s ix = some (fitBox pinnedFrom s ix) := by
  unfold fitBoxInWords? fitBox
  split
  · rfl
  · rw [h.fitInWords?_eq, Option.map_some]

theorem foldlM_fitBoxInWords? {s : Refinement α} (h : s.regressor.InWords)
    (pinnedFrom : ℕ) (ixs : List ℕ) :
    ixs.foldlM (fitBoxInWords? pinnedFrom) s = some (ixs.foldl (fitBox pinnedFrom) s) := by
  induction ixs generalizing s with
  | nil => rfl
  | cons ix ixs ih =>
      rw [List.foldlM_cons, fitBoxInWords?_eq h, Option.bind_eq_bind, Option.bind_some,
        List.foldl_cons]
      exact ih (h.of_fitsLike (fitsLike_fitBox pinnedFrom s ix))

theorem fitsLike_evaluatePinned (m : PiecewiseMap α) (r : Regressor α) (pinnedFrom : ℕ) :
    (evaluatePinned m r pinnedFrom).regressor.FitsLike r := by
  unfold evaluatePinned
  split
  · refine List.foldlRecOn (motive := fun s : Refinement α => s.regressor.FitsLike r) _ _
      (.refl r) fun s hs ix _ => ?_
    exact (fitsLike_fitBox pinnedFrom s ix).trans hs
  · exact .refl r

/-- An evaluation in words gives what the evaluation gives. -/
theorem evaluatePinnedInWords?_eq {r : Regressor α} (h : r.InWords) (m : PiecewiseMap α)
    (pinnedFrom : ℕ) :
    evaluatePinnedInWords? m r pinnedFrom = some (evaluatePinned m r pinnedFrom) := by
  unfold evaluatePinnedInWords? evaluatePinned
  split
  · exact foldlM_fitBoxInWords? h pinnedFrom _
  · rfl

/-- With too many check samples the fit of the first box has no result. -/
theorem evaluatePinnedInWords?_eq_none {r : Regressor α} (hlimit : 2 ^ 63 ≤ r.samples)
    {m : PiecewiseMap α} (hdomain : (r.objective.domain == m.domain) = true) {b : Box α}
    (hfirst : m.boxes[0]? = some b) (hextents : b.extents ≠ []) (pinnedFrom : ℕ) :
    evaluatePinnedInWords? m r pinnedFrom = none := by
  obtain ⟨n, hn⟩ : ∃ n, m.size = n + 1 :=
    Nat.exists_eq_succ_of_ne_zero (Array.getElem?_eq_some_iff.mp hfirst).1.ne'
  have hfit : r.fitInWords? b = none := by
    rw [Regressor.fitInWords?_eq (by omega)]
    exact if_neg (not_or.mpr ⟨hextents, by omega⟩)
  simp only [evaluatePinnedInWords?, if_pos hdomain, hn, List.range_succ_eq_map,
    List.foldlM_cons, fitBoxInWords?, hfirst, hfit]
  rfl

/-! ## The cutting loop -/

theorem cutBoxInWords?_eq {s : Refinement α} (h : s.regressor.InWords) (ix : ℕ) :
    s.cutBoxInWords? ix = some (s.cutBox? ix) := by
  unfold cutBoxInWords? cutBox?
  cases s.halves? ix with
  | none => rfl
  | some halves =>
      have hlower := h.of_fitsLike (s.regressor.fitsLike_fit halves.1)
      simp only [h.fitInWords?_eq, hlower.fitInWords?_eq, Option.bind_eq_bind,
        Option.bind_some, Option.pure_def, Option.map_some]

/-- One round of the cutting loop in words under a budget that is not spent. -/
theorem cutWorstInWords?_succ (s : Refinement α) {budget : ℕ} (hb : budget ≠ 0)
    (threshold : α) :
    s.cutWorstInWords? budget threshold =
      match s.next? threshold with
      | none => some (0, s)
      | some (entry, t) =>
        match t.cutBoxInWords? entry.ix with
        | none => none
        | some none => t.cutWorstInWords? budget threshold
        | some (some cut) =>
          (cut.cutWorstInWords? (budget - 1) threshold).map fun (cuts, last) =>
            (cuts + 1, last) := by
  rw [cutWorstInWords?, dif_neg hb]
  split
  · rename_i hnext
    rw [hnext]
  · rename_i entry t hnext
    rw [hnext]
    dsimp only
    split
    all_goals
      rename_i hcut
      rw [hcut]

/-- The cutting loop in words gives what the cutting loop gives. -/
theorem cutWorstInWords?_eq {s : Refinement α} (h : s.regressor.InWords) (budget : ℕ)
    (threshold : α) :
    s.cutWorstInWords? budget threshold = some (s.cutWorst budget threshold) := by
  fun_induction cutWorst s budget threshold with
  | case1 s => rw [cutWorstInWords?, dif_pos rfl]
  | case2 s budget hb hn => rw [cutWorstInWords?_succ s hb, hn]
  | case3 s budget hb entry t hn hc ih =>
      have ht : t.regressor.InWords := by rwa [(next?_eq_some hn).2.2]
      rw [cutWorstInWords?_succ s hb, hn]
      simp only [cutBoxInWords?_eq ht, hc]
      exact ih ht
  | case4 s budget hb entry t hn cut hc cuts last heq ih =>
      have ht : t.regressor.InWords := by rwa [(next?_eq_some hn).2.2]
      rw [cutWorstInWords?_succ s hb, hn]
      simp only [cutBoxInWords?_eq ht, hc]
      rw [ih (ht.of_fitsLike (fitsLike_cutBox? hc)), heq, Option.map_some]

/-- A refinement in words gives what the refinement gives. -/
theorem refineInWords?_eq {s : Refinement α} (h : s.regressor.InWords) (budget : ℕ)
    (threshold : α) :
    s.refineInWords? budget threshold = some (s.refine budget threshold) := by
  unfold refineInWords? refine
  split
  · rfl
  · rw [cutWorstInWords?_eq h, Option.map_some]

end Refinement

end IntervalProgramming
