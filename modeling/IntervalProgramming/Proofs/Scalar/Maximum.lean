import Mathlib.Algebra.Order.Group.MinMax
import Mathlib.Order.Bounds.Basic
import IntervalProgramming.Proofs.Scalar.Rational

/-!
# Greatest entries

Over the rational numbers the largest and the smallest of a list are its extremes,
and a scan that keeps what it holds until an entry is greater ends with the first
entry of greatest value.
-/

namespace IntervalProgramming.Scalar

/-! ## The extremes of a list -/

/-- The maximum of a list from some start is the greatest of the start and the
entries. -/
theorem isGreatest_foldl_max (xs : List ℚ) (start : ℚ) :
    IsGreatest {x | x ∈ start :: xs} (xs.foldl Scalar.max start) := by
  induction xs generalizing start with
  | nil => exact ⟨List.mem_cons_self, fun x hx => (List.mem_singleton.mp hx).le⟩
  | cons y ys ih =>
      obtain ⟨hmem, hbound⟩ := ih (Scalar.max start y)
      have hhead : Scalar.max start y ≤ ys.foldl Scalar.max (Scalar.max start y) :=
        hbound List.mem_cons_self
      rw [List.foldl_cons]
      rw [Scalar.max_eq] at hhead hmem hbound ⊢
      constructor
      · rcases List.mem_cons.mp hmem with hstart | hys
        · rw [Set.mem_ofPred_eq, hstart]
          rcases max_choice start y with hmax | hmax
          · rw [hmax]
            exact List.mem_cons_self
          · rw [hmax]
            exact List.mem_cons_of_mem _ List.mem_cons_self
        · exact List.mem_cons_of_mem _ (List.mem_cons_of_mem _ hys)
      · intro x hx
        rcases List.mem_cons.mp hx with rfl | hx
        · exact (le_max_left _ _).trans hhead
        rcases List.mem_cons.mp hx with rfl | hx
        · exact (le_max_right _ _).trans hhead
        · exact hbound (List.mem_cons_of_mem _ hx)

theorem isGreatest_largest? {xs : List ℚ} {x : ℚ} (h : largest? xs = some x) :
    IsGreatest {y | y ∈ xs} x := by
  rcases xs with _ | ⟨start, xs⟩
  · cases h
  · obtain rfl := Option.some.inj h
    exact isGreatest_foldl_max xs start

/-- The smallest of a list is the negative of the largest of the negated list. -/
theorem smallest?_eq (xs : List ℚ) :
    smallest? xs = (largest? (xs.map (-·))).map (-·) := by
  rcases xs with _ | ⟨x, xs⟩
  · rfl
  · have hstep : ∀ y z : ℚ, Scalar.min (-y) z = -Scalar.max y (-z) := by
      intro y z
      rw [min_eq, max_eq, ← min_neg_neg, neg_neg]
    rw [List.map_cons, largest?, smallest?, List.foldl_map, Option.map_some]
    calc some (xs.foldl Scalar.min x) = some (xs.foldl Scalar.min (- -x)) := by
          rw [neg_neg]
      _ = some (-xs.foldl (fun y z => Scalar.max y (-z)) (-x)) :=
          congrArg some (List.foldl_hom (-·) hstep)

theorem isLeast_smallest? {xs : List ℚ} {x : ℚ} (h : smallest? xs = some x) :
    IsLeast {y | y ∈ xs} x := by
  rw [smallest?_eq, Option.map_eq_some_iff] at h
  obtain ⟨top, htop, rfl⟩ := h
  obtain ⟨hmem, hbound⟩ := isGreatest_largest? htop
  obtain ⟨least, hleast, rfl⟩ := List.mem_map.mp hmem
  constructor
  · rwa [neg_neg]
  · intro y hy
    exact neg_le.mp (hbound (List.mem_map_of_mem hy))

/-! ## The first of the greatest -/

section Scans

variable {β γ : Type} {step : Option γ → β → Option γ} {value : β → ℚ} {find : β → γ}
  {held : γ → ℚ} {best : Option γ}

/-- A step of a scan that replaces what it holds exactly by an entry of greater
value. -/
structure Improves (step : Option γ → β → Option γ) (value : β → ℚ) (find : β → γ)
    (held : γ → ℚ) : Prop where
  start : ∀ x, step none x = some (find x)
  next : ∀ y x, step (some y) x = if held y < value x then some (find x) else some y
  held_find : ∀ x, held (find x) = value x

theorem Improves.foldl_of_le (h : Improves step value find held) {xs : List β} {y : γ}
    (hle : ∀ x ∈ xs, value x ≤ held y) : xs.foldl step (some y) = some y := by
  induction xs with
  | nil => rfl
  | cons x xs ih =>
      obtain ⟨hx, hxs⟩ := List.forall_mem_cons.mp hle
      rw [List.foldl_cons, h.next, if_neg (not_lt.mpr hx)]
      exact ih hxs

theorem Improves.step_lt (h : Improves step value find held) {v : ℚ} {x : β}
    (hbest : ∀ y, best = some y → held y < v) (hx : value x < v) :
    ∀ y, step best x = some y → held y < v := by
  intro y hy
  rcases best with _ | z
  · rw [h.start] at hy
    obtain rfl := Option.some.inj hy
    rwa [h.held_find]
  · rw [h.next] at hy
    split at hy
    · obtain rfl := Option.some.inj hy
      rwa [h.held_find]
    · exact hbest y hy

theorem Improves.foldl_lt (h : Improves step value find held) {v : ℚ} {xs : List β}
    (hbest : ∀ y, best = some y → held y < v) (hlt : ∀ x ∈ xs, value x < v) :
    ∀ y, xs.foldl step best = some y → held y < v := by
  induction xs generalizing best with
  | nil => exact hbest
  | cons x xs ih =>
      obtain ⟨hx, hxs⟩ := List.forall_mem_cons.mp hlt
      exact ih (h.step_lt hbest hx) hxs

/-- The first entry of greatest value replaces everything below it and is not
replaced itself. -/
theorem Improves.foldl_of_first (h : Improves step value find held) {before after : List β}
    {x : β} (hbest : ∀ y, best = some y → held y < value x)
    (hbefore : ∀ y ∈ before, value y < value x) (hafter : ∀ y ∈ after, value y ≤ value x) :
    (before ++ x :: after).foldl step best = some (find x) := by
  have hlt := h.foldl_lt hbest hbefore
  have hfind : step (before.foldl step best) x = some (find x) := by
    generalize before.foldl step best = last at hlt ⊢
    rcases last with _ | y
    · exact h.start x
    · rw [h.next, if_pos (hlt y rfl)]
  rw [List.foldl_append, List.foldl_cons, hfind]
  refine h.foldl_of_le fun y hy => ?_
  rw [h.held_find]
  exact hafter y hy

end Scans

theorem exists_first_max {β : Type} (value : β → ℚ) {xs : List β}
    (h : xs ≠ []) :
    ∃ before x after, xs = before ++ x :: after ∧
      (∀ y ∈ before, value y < value x) ∧ ∀ y ∈ after, value y ≤ value x := by
  induction xs with
  | nil => exact absurd rfl h
  | cons x xs ih =>
      rcases eq_or_ne xs [] with rfl | hxs
      · exact ⟨[], x, [], rfl, nofun, nofun⟩
      · obtain ⟨before, y, after, rfl, hbefore, hafter⟩ := ih hxs
        rcases lt_or_ge (value x) (value y) with hlt | hge
        · refine ⟨x :: before, y, after, rfl, ?_, hafter⟩
          intro z hz
          rcases List.mem_cons.mp hz with rfl | hz
          · exact hlt
          · exact hbefore z hz
        · refine ⟨[], x, before ++ y :: after, rfl, nofun, ?_⟩
          intro z hz
          rcases List.mem_append.mp hz with hz | hz
          · exact (hbefore z hz).le.trans hge
          · rcases List.mem_cons.mp hz with rfl | hz
            · exact hge
            · exact (hafter z hz).trans hge

end IntervalProgramming.Scalar
