import IntervalProgramming.Proofs.Box.Ranges
import IntervalProgramming.Proofs.Map.Overlap

/-!
# Requests beyond the range of a variable

Rounding never leaves the range of a variable: a value beyond an end is given the
index of that end.  So the box of a requested range of values holds an index even
where no grid value is anywhere near, and its indices stay inside the request, or
the request lies between two neighbouring values, exactly if the request and the
range of the variable meet.
-/

namespace IntervalProgramming

namespace ValueRange

variable {r : ValueRange ℚ} {low high : ℚ} {i : Interval} {j : ℕ}

/-! ## Ranges of any ends -/

/-- All values of a range with equal ends are the same. -/
theorem value_of_low_eq_high (hflat : r.low = r.high) (j : ℕ) : r.value j = r.low := by
  have hdelta : r.delta = 0 := by
    rw [delta, hflat, sub_self, zero_div, Nat.cast_zero, ite_self]
  rw [value, hdelta, zero_mul, add_zero]

theorem value_between (r : ValueRange ℚ) (hj : j < r.count) :
    r.low ≤ r.value j ∧ r.value j ≤ r.high := by
  rcases r.low_le_high.eq_or_lt with hflat | hspread
  · rw [value_of_low_eq_high hflat]
    exact ⟨le_rfl, hflat.le⟩
  · exact ⟨low_le_value hspread j, value_le_high hspread (lt_count_iff.mp hj)⟩

/-! ## Requested values -/

/-- A range of values always becomes an interval of indices of the range. -/
theorem exists_interval? (r : ValueRange ℚ) (hle : low ≤ high) :
    ∃ i, r.interval? low high = some i ∧ i.hi < r.count := by
  rcases hle.eq_or_lt with rfl | hlt
  · exact ⟨_, r.interval?_self low, r.discretize_lt_count low .nearest⟩
  rcases le_or_gt (r.discretize low .up) (r.discretize high .down) with hends | hends
  · exact ⟨_, interval?_of_le hlt hends, r.discretize_lt_count high .down⟩
  · exact ⟨_, interval?_of_lt hlt hends, r.discretize_lt_count _ .nearest⟩

theorem hi_lt_count_of_interval? (hle : low ≤ high) (hi : r.interval? low high = some i) :
    i.hi < r.count := by
  obtain ⟨i', hi', hcount⟩ := r.exists_interval? hle
  obtain rfl := Option.some.inj (hi.symm.trans hi')
  exact hcount

/-- Where a request and a range with two different ends meet and no value of the
range lies in the request, it lies between two neighbouring values. -/
theorem exists_between (hspread : r.low < r.high) (hle : low ≤ high)
    (hlow : r.low ≤ high) (hhigh : low ≤ r.high)
    (hnone : ∀ j < r.count, ¬ (low ≤ r.value j ∧ r.value j ≤ high)) :
    ∃ j, j + 1 < r.count ∧ r.value j < low ∧ high < r.value (j + 1) := by
  have hstart : r.low ≤ low := by
    by_contra hlt
    apply hnone 0 r.count_pos
    rw [value_zero]
    exact ⟨(not_le.mp hlt).le, hlow⟩
  obtain ⟨⟨hj, hvalue⟩, hgreatest⟩ := isGreatest_discretize_down hspread hstart
  have hbelow : r.value (r.discretize low .down) < low := by
    refine hvalue.lt_of_ne ?_
    intro heq
    exact hnone _ hj ⟨heq.ge, heq.le.trans hle⟩
  have hnext : r.discretize low .down + 1 < r.count := by
    rw [lt_count_iff, Nat.succ_le_iff]
    refine (lt_count_iff.mp hj).lt_of_ne ?_
    intro hlast
    rw [hlast, value_lastIndex hspread] at hbelow
    exact absurd hbelow (not_lt.mpr hhigh)
  refine ⟨_, hnext, hbelow, ?_⟩
  by_contra hinside
  have habove : low < r.value (r.discretize low .down + 1) := by
    by_contra hle'
    exact absurd (hgreatest ⟨hnext, not_lt.mp hle'⟩) (Nat.not_succ_le_self _)
  exact hnone _ hnext ⟨habove.le, not_lt.mp hinside⟩

end ValueRange

/-! ## Staying inside -/

namespace Domain

variable {d : Domain ℚ} {k : ℕ} {v : Variable ℚ} {low high : ℚ} {i : Interval}

/-- Whether the values from `low` to `high` lie between two neighbouring values of
the variable at position `k`. -/
def BetweenValues (d : Domain ℚ) (k : ℕ) (low high : ℚ) : Prop :=
  ∃ j y z, d.valueAt? k j = some y ∧ d.valueAt? k (j + 1) = some z ∧
    y < low ∧ high < z

/-- Whether every index of an interval stands for a value from `low` to `high` of
the variable at position `k`, or no interval could, since these values lie between
two neighbouring ones. -/
def StaysInside (d : Domain ℚ) (k : ℕ) (low high : ℚ) (i : Interval) : Prop :=
  d.BetweenValues k low high ∨
    ∀ j, i.contains j = true → ∃ y, d.valueAt? k j = some y ∧ low ≤ y ∧ y ≤ high

theorem meets_of_staysInside (hv : d.var? k = some v) (hle : low ≤ high)
    (h : d.StaysInside k low high i) : v.low ≤ high ∧ low ≤ v.high := by
  rcases h with ⟨j, y, z, hy, hz, hlow, hhigh⟩ | hinside
  · obtain ⟨hj, rfl⟩ := (valueAt?_eq_some_iff hv).mp hy
    obtain ⟨hj', rfl⟩ := (valueAt?_eq_some_iff hv).mp hz
    have hbelow := (v.value_between hj).1
    have habove := (v.value_between hj').2
    constructor
    · linarith
    · linarith
  · obtain ⟨y, hy, hlow, hhigh⟩ :=
      hinside i.lo ((Interval.contains_eq_true_iff ..).mpr ⟨le_rfl, i.le⟩)
    obtain ⟨hj, rfl⟩ := (valueAt?_eq_some_iff hv).mp hy
    obtain ⟨hbelow, habove⟩ := v.value_between hj
    exact ⟨hbelow.trans hhigh, hlow.trans habove⟩

theorem staysInside_of_meets (hv : d.var? k = some v) (hle : low ≤ high)
    (hi : v.interval? low high = some i) (hlow : v.low ≤ high) (hhigh : low ≤ v.high) :
    d.StaysInside k low high i := by
  rcases v.low_le_high.eq_or_lt with hflat | hspread
  · right
    intro j hj
    have hj' : j < v.count := ((Interval.contains_eq_true_iff ..).mp hj).2.trans_lt
      (ValueRange.hi_lt_count_of_interval? hle hi)
    refine ⟨_, (valueAt?_eq_some_iff hv).mpr ⟨hj', rfl⟩, ?_⟩
    rw [ValueRange.value_of_low_eq_high hflat]
    exact ⟨hflat ▸ hhigh, hlow⟩
  by_cases hmem : (d.indicesWhere k fun y => low ≤ y ∧ y ≤ high).Nonempty
  · right
    obtain ⟨i', hi', hcovers⟩ := exists_interval? hv hspread hle
    obtain rfl := Option.some.inj (hi.symm.trans hi')
    intro j hj
    exact (hcovers.holds hmem j).mp hj
  · left
    have hnone : ∀ j < v.count, ¬ (low ≤ v.value j ∧ v.value j ≤ high) := by
      intro j hj hin
      exact hmem ⟨j, _, (valueAt?_eq_some_iff hv).mpr ⟨hj, rfl⟩, hin⟩
    obtain ⟨j, hnext, hbelow, habove⟩ :=
      ValueRange.exists_between hspread hle hlow hhigh hnone
    exact ⟨j, _, _, (valueAt?_eq_some_iff hv).mpr ⟨Nat.lt_of_succ_lt hnext, rfl⟩,
      (valueAt?_eq_some_iff hv).mpr ⟨hnext, rfl⟩, hbelow, habove⟩

end Domain

namespace Box

/-- The box of a request along one variable stays inside the request, or the
request lies between two neighbouring values of the variable, exactly if it meets
the range of the variable. -/
theorem ofRange?_staysInside_iff {d : Domain ℚ} {k : ℕ} {v : Variable ℚ} {low high : ℚ}
    (hv : d.var? k = some v) (hle : low ≤ high) :
    ∃ e, ofRange? d v.name low high = some (flat [e]) ∧ e.dim = k ∧
      (d.StaysInside k low high e.toInterval ↔ v.low ≤ high ∧ low ≤ v.high) := by
  obtain ⟨i, hi, -⟩ := v.exists_interval? hle
  refine ⟨{ i with dim := k }, ?_, rfl, ?_⟩
  · rw [ofRange?, Domain.extent?_name hv, hi]
    rfl
  · constructor
    · exact Domain.meets_of_staysInside hv hle
    · rintro ⟨hlow, hhigh⟩
      exact Domain.staysInside_of_meets hv hle hi hlow hhigh

/-- The values from 10/3 to 9 reach beyond the first variable of the gauge, but
meet its range, so the box stays inside. -/
theorem ofRange?_staysInside_gauge :
    ∃ e, ofRange? Domain.gauge "x" (10 / 3) 9 = some (flat [e]) ∧
      Domain.gauge.StaysInside 0 (10 / 3) 9 e.toInterval := by
  obtain ⟨e, hbox, -, hiff⟩ :=
    @ofRange?_staysInside_iff Domain.gauge 0 _ (10 / 3) 9 rfl (by norm_num)
  exact ⟨e, hbox, hiff.mpr (by decide +kernel)⟩

/-- The values from 5 to 6 lie beyond the range of a variable from 0 to 1, and
their box holds the index of the value 1. -/
theorem ofRange?_beyond_switch :
    ∃ e, ofRange? Domain.switch "x" 5 6 = some (flat [e]) ∧ e.contains 1 = true ∧
      Domain.switch.valueAt? 0 1 = some 1 ∧
      ¬ Domain.switch.StaysInside 0 5 6 e.toInterval := by
  refine ⟨{ Interval.point 1 with dim := 0 }, rfl, rfl, by decide +kernel, ?_⟩
  intro hinside
  have hmeets := (Domain.meets_of_staysInside rfl (by norm_num) hinside).2
  exact absurd hmeets (by decide +kernel)

end Box

end IntervalProgramming
