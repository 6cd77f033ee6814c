import IntervalProgramming.Proofs.Refine.Worklist

/-!
# Budgets of a refinement

A refinement that stops because its budget is spent goes on where it stopped:
spending two budgets one after the other is spending their sum at once.  What a
first call leaves behind and a single call does not have is the grid it builds
at its end, and the cutting loop never looks at the grid.
-/

namespace IntervalProgramming

variable {α : Type} [Scalar α]

namespace Refinement

/-! ## Rounds of the cutting loop -/

theorem cutWorst_zero (s : Refinement α) (threshold : α) :
    s.cutWorst 0 threshold = (0, s) := by
  rw [cutWorst, dif_pos rfl]

/-- One round of the cutting loop under a budget that is not spent. -/
theorem cutWorst_succ (s : Refinement α) (budget : ℕ) (threshold : α) :
    s.cutWorst (budget + 1) threshold =
      match s.next? threshold with
      | none => (0, s)
      | some (entry, t) =>
        match t.cutBox? entry.ix with
        | none => t.cutWorst (budget + 1) threshold
        | some cut =>
          ((cut.cutWorst budget threshold).1 + 1,
            (cut.cutWorst budget threshold).2) := by
  rw [cutWorst, dif_neg (Nat.succ_ne_zero budget)]
  split
  · rename_i hnext
    rw [hnext]
  · rename_i entry t hnext
    rw [hnext]
    dsimp only
    split
    · rename_i hcut
      rw [hcut]
    · rename_i cut hcut
      rw [hcut]
      rfl

section

variable {s t cut : Refinement α} {entry : QueueEntry α} {threshold : α}

theorem cutWorst_of_ended (h : s.next? threshold = none) (budget : ℕ) :
    s.cutWorst budget threshold = (0, s) := by
  cases budget with
  | zero => exact cutWorst_zero s threshold
  | succ budget => rw [cutWorst_succ, h]

/-- An entry without a box that can be cut costs nothing. -/
theorem cutWorst_of_drop (h : s.next? threshold = some (entry, t))
    (hcut : t.cutBox? entry.ix = none) (budget : ℕ) :
    s.cutWorst (budget + 1) threshold = t.cutWorst (budget + 1) threshold := by
  rw [cutWorst_succ, h]
  dsimp only
  rw [hcut]

theorem cutWorst_of_cut (h : s.next? threshold = some (entry, t))
    (hcut : t.cutBox? entry.ix = some cut) (budget : ℕ) :
    s.cutWorst (budget + 1) threshold =
      ((cut.cutWorst budget threshold).1 + 1,
        (cut.cutWorst budget threshold).2) := by
  rw [cutWorst_succ, h]
  dsimp only
  rw [hcut]

end

/-- The cutting loop resumed with a second budget does what it does with both
budgets at once. -/
theorem cutWorst_add (s : Refinement α) (a b : ℕ) (threshold : α) :
    s.cutWorst (a + b) threshold =
      ((s.cutWorst a threshold).1 +
          ((s.cutWorst a threshold).2.cutWorst b threshold).1,
        ((s.cutWorst a threshold).2.cutWorst b threshold).2) := by
  fun_induction cutWorst s a threshold with
  | case1 s => simp
  | case2 s a ha hnext => simp [cutWorst_of_ended hnext]
  | case3 s a ha entry t hnext hcut ih =>
      obtain ⟨a, rfl⟩ := Nat.exists_eq_add_one_of_ne_zero ha
      rw [Nat.add_right_comm] at ih ⊢
      rw [cutWorst_of_drop hnext hcut, ih]
  | case4 s a ha entry t hnext cut hcut cuts last heq ih =>
      obtain ⟨a, rfl⟩ := Nat.exists_eq_add_one_of_ne_zero ha
      rw [heq, Nat.add_sub_cancel] at ih
      rw [Nat.add_right_comm, cutWorst_of_cut hnext hcut, ih, Nat.add_right_comm]

/-! ## The grid between two calls -/

/-- Bring the grid of the map up to date. -/
def refreshGrid (s : Refinement α) : Refinement α :=
  { s with map := s.map.updateGrid }

theorem refreshGrid_refreshGrid (s : Refinement α) :
    s.refreshGrid.refreshGrid = s.refreshGrid :=
  rfl

theorem next?_refreshGrid (s : Refinement α) (threshold : α) :
    s.refreshGrid.next? threshold =
      (s.next? threshold).map fun next => (next.1, next.2.refreshGrid) := by
  simp only [next?, refreshGrid]
  split
  · rfl
  · split <;> rfl

theorem next?_refreshGrid_of_some {s t : Refinement α} {entry : QueueEntry α}
    {threshold : α} (h : s.next? threshold = some (entry, t)) :
    s.refreshGrid.next? threshold = some (entry, t.refreshGrid) := by
  rw [next?_refreshGrid, h, Option.map_some]

theorem cutBox?_refreshGrid (s : Refinement α) (ix : ℕ) :
    s.refreshGrid.cutBox? ix = s.cutBox? ix :=
  rfl

/-- Up to the grid, the cutting loop does the same with a grid that is up to
date. -/
theorem cutWorst_refreshGrid (s : Refinement α) (budget : ℕ) (threshold : α) :
    (s.refreshGrid.cutWorst budget threshold).1 = (s.cutWorst budget threshold).1 ∧
      (s.refreshGrid.cutWorst budget threshold).2.refreshGrid =
        (s.cutWorst budget threshold).2.refreshGrid := by
  fun_induction cutWorst s budget threshold with
  | case1 s =>
      rw [cutWorst_zero]
      exact ⟨rfl, refreshGrid_refreshGrid s⟩
  | case2 s budget hb hnext =>
      have hended : s.refreshGrid.next? threshold = none := by
        rw [next?_refreshGrid, hnext, Option.map_none]
      rw [cutWorst_of_ended hended]
      exact ⟨rfl, refreshGrid_refreshGrid s⟩
  | case3 s budget hb entry t hnext hcut ih =>
      obtain ⟨budget, rfl⟩ := Nat.exists_eq_add_one_of_ne_zero hb
      have hdrop := (cutBox?_refreshGrid t entry.ix).trans hcut
      rwa [cutWorst_of_drop (next?_refreshGrid_of_some hnext) hdrop]
  | case4 s budget hb entry t hnext cut hcut cuts last heq ih =>
      -- A cut drops the grid, so from here on the two runs are the same.
      obtain ⟨budget, rfl⟩ := Nat.exists_eq_add_one_of_ne_zero hb
      have hsame := (cutBox?_refreshGrid t entry.ix).trans hcut
      rw [Nat.add_sub_cancel] at heq
      rw [cutWorst_of_cut (next?_refreshGrid_of_some hnext) hsame, heq]
      exact ⟨rfl, rfl⟩

/-! ## Refining in two calls -/

/-- Whether a refinement looks at the queue at all when it has a budget: the map
has a box, and its domain is that of the objective. -/
def isActive (s : Refinement α) : Bool :=
  !s.map.isEmpty && s.regressor.objective.domain == s.map.domain

theorem refine_zero (s : Refinement α) (threshold : α) :
    s.refine 0 threshold = (0, s) := by
  unfold refine
  rw [if_pos (by simp)]

theorem refine_of_not_isActive {s : Refinement α} (h : s.isActive = false)
    (budget : ℕ) (threshold : α) : s.refine budget threshold = (0, s) := by
  unfold refine
  rw [if_pos]
  cases hempty : s.map.isEmpty with
  | true => simp
  | false => simp_all [isActive]

theorem refine_of_isActive {s : Refinement α} (h : s.isActive = true) {budget : ℕ}
    (hbudget : budget ≠ 0) (threshold : α) :
    s.refine budget threshold =
      ((s.cutWorst budget threshold).1,
        (s.cutWorst budget threshold).2.refreshGrid) := by
  simp only [isActive, Bool.and_eq_true, Bool.not_eq_true'] at h
  unfold refine
  rw [if_neg (by simp [h, hbudget])]
  rfl

theorem fitsLike_cutBox? {s t : Refinement α} {ix : ℕ} (h : s.cutBox? ix = some t) :
    t.regressor.FitsLike s.regressor := by
  obtain ⟨b, lower, upper, -, -, rfl⟩ := cutBox?_eq_some h
  exact (Regressor.fitsLike_fit _ upper).trans (Regressor.fitsLike_fit _ lower)

theorem fitsLike_cutWorst (s : Refinement α) (budget : ℕ) (threshold : α) :
    (s.cutWorst budget threshold).2.regressor.FitsLike s.regressor := by
  apply cutWorst_induction (P := fun last : Refinement α =>
    last.regressor.FitsLike s.regressor) _ (.refl _)
  intro now next entry hnow hnext
  rw [← (next?_eq_some hnext).2.2] at hnow
  exact ⟨fun _ => hnow, fun after hafter => (fitsLike_cutBox? hafter).trans hnow⟩

/-- Cutting does not change whether a refinement is active. -/
theorem isActive_cutWorst {s : Refinement α} (h : s.isActive = true) (budget : ℕ)
    (threshold : α) : (s.cutWorst budget threshold).2.isActive = true := by
  simp only [isActive, Bool.and_eq_true, Bool.not_eq_true'] at h ⊢
  obtain ⟨hfull, hdomain⟩ := h
  refine ⟨?_, ?_⟩
  · have hsize := (size_map_cutWorst s budget threshold).2
    simp only [PiecewiseMap.isEmpty, PiecewiseMap.size, Array.isEmpty_eq_false_iff,
      ← Array.size_pos_iff] at hfull hsize ⊢
    omega
  · rw [(fitsLike_cutWorst s budget threshold).objective,
      (keeps_cutWorst s budget threshold).domain]
    exact hdomain

/-- Budgets compose.  Refining with one budget and then with another one, from
the map, the queue and the regressor that the first call left, makes together
the cuts of one call with the sum of the budgets, and leaves the same boxes, the
same grid, the same queue and the same counts of the regressor. -/
theorem refine_add (s : Refinement α) (a b : ℕ) (threshold : α) :
    s.refine (a + b) threshold =
      ((s.refine a threshold).1 + ((s.refine a threshold).2.refine b threshold).1,
        ((s.refine a threshold).2.refine b threshold).2) := by
  by_cases hactive : s.isActive = true
  · rcases Nat.eq_zero_or_pos a with rfl | ha
    · rw [refine_zero, Nat.zero_add, Nat.zero_add]
    · rcases Nat.eq_zero_or_pos b with rfl | hb
      · rw [refine_zero, Nat.add_zero, Nat.add_zero]
      · have hactive' : (s.cutWorst a threshold).2.refreshGrid.isActive = true :=
          isActive_cutWorst hactive a threshold
        obtain ⟨hcuts, hlast⟩ :=
          cutWorst_refreshGrid (s.cutWorst a threshold).2 b threshold
        rw [refine_of_isActive hactive (by omega), refine_of_isActive hactive (by omega),
          refine_of_isActive hactive' (by omega), cutWorst_add, hcuts, hlast]
  · rw [Bool.not_eq_true] at hactive
    simp only [refine_of_not_isActive hactive, Nat.add_zero]

end Refinement

end IntervalProgramming
