import Mathlib.Algebra.Order.Floor.Semiring
import Mathlib.Data.Rat.Floor
import IntervalProgramming.Domain.Snap
import IntervalProgramming.Proofs.Scalar.Rational

/-!
# Rounding to the grid

Over the rational numbers the values of a range with two different ends go up in
equal steps from one end to the other.  Each way of rounding is described by one
condition, which says when a value is rounded to an index or below it.  All else
follows from it: which index is chosen, that it is one of the range, that a larger
value is never rounded to a smaller index, and that a grid value is rounded to its
own index.  The distance of a value in steps is below the number of points, so no
rounding leaves its index word.
-/

namespace IntervalProgramming

theorem wholePart_eq (limit : ℕ) (x : ℚ) : Scalar.wholePart limit x = min limit ⌊x⌋₊ :=
  rfl

/-- The next whole number, found from the whole part. -/
theorem succ_floor_eq_ceil {x : ℚ} (hx : 0 ≤ x) :
    (if (⌊x⌋₊ : ℚ) < x then ⌊x⌋₊ + 1 else ⌊x⌋₊) = ⌈x⌉₊ := by
  split
  · rename_i hlt
    have hle : x ≤ (⌊x⌋₊ + 1 : ℕ) := by exact_mod_cast (Nat.lt_floor_add_one x).le
    exact ((Nat.ceil_eq_iff (Nat.succ_ne_zero _)).mpr ⟨hlt, hle⟩).symm
  · rename_i hge
    have hwhole : x = ⌊x⌋₊ := le_antisymm (not_lt.mp hge) (Nat.floor_le hx)
    rw [hwhole, Nat.floor_natCast, Nat.ceil_natCast]

namespace ValueRange

variable {r : ValueRange ℚ} {x y : ℚ} {j k : ℕ}

/-! ## The grid values -/

theorem low_le_high (r : ValueRange ℚ) : r.low ≤ r.high :=
  not_lt.mp r.ordered

theorem lastIndex_add_one (r : ValueRange ℚ) : r.lastIndex + 1 = r.count :=
  Nat.sub_add_cancel r.count_pos

theorem lt_count_iff : j < r.count ↔ j ≤ r.lastIndex := by
  rw [← r.lastIndex_add_one, Nat.lt_succ_iff]

/-- A range with two different ends has more than one point. -/
theorem lastIndex_pos (hspread : r.low < r.high) : 0 < r.lastIndex := by
  by_contra hzero
  have hone : r.points.toNat = 1 := by
    have hcount := r.lastIndex_add_one
    rw [Nat.eq_zero_of_not_pos hzero, zero_add] at hcount
    exact hcount.symm
  have heq := beq_iff_eq.mp (r.single (UInt32.toNat_inj.mp hone))
  exact hspread.ne heq

theorem delta_mul_lastIndex (hspread : r.low < r.high) :
    r.delta * r.lastIndex = r.high - r.low := by
  have hlast := lastIndex_pos hspread
  have hcount : 1 < r.count := by
    have := r.lastIndex_add_one
    omega
  rw [delta, if_pos hcount]
  exact div_mul_cancel₀ _ (Nat.cast_ne_zero.mpr hlast.ne')

theorem delta_pos (hspread : r.low < r.high) : 0 < r.delta := by
  have hlast : (0 : ℚ) < r.lastIndex := Nat.cast_pos.mpr (lastIndex_pos hspread)
  refine pos_of_mul_pos_left ?_ hlast.le
  rw [delta_mul_lastIndex hspread]
  exact sub_pos.mpr hspread

theorem value_zero (r : ValueRange ℚ) : r.value 0 = r.low := by
  rw [value, Nat.cast_zero, mul_zero, add_zero]

theorem value_succ (r : ValueRange ℚ) (j : ℕ) : r.value (j + 1) = r.value j + r.delta := by
  rw [value, value, Nat.cast_succ]
  ring

theorem value_lastIndex (hspread : r.low < r.high) : r.value r.lastIndex = r.high := by
  rw [value, delta_mul_lastIndex hspread]
  ring

theorem strictMono_value (hspread : r.low < r.high) : StrictMono r.value := by
  refine strictMono_nat_of_lt_succ fun j => ?_
  rw [value_succ]
  exact lt_add_of_pos_right _ (delta_pos hspread)

theorem low_le_value (hspread : r.low < r.high) (j : ℕ) : r.low ≤ r.value j := by
  rw [← r.value_zero]
  exact (strictMono_value hspread).monotone (Nat.zero_le j)

theorem value_le_high (hspread : r.low < r.high) (hj : j ≤ r.lastIndex) :
    r.value j ≤ r.high := by
  rw [← value_lastIndex hspread]
  exact (strictMono_value hspread).monotone hj

/-! ## Distances in steps -/

theorem steps_le_iff (hspread : r.low < r.high) :
    (x - r.low) / r.delta ≤ j ↔ x ≤ r.value j := by
  rw [div_le_iff₀ (delta_pos hspread), value, sub_le_iff_le_add', mul_comm]

theorem steps_lt_iff (hspread : r.low < r.high) :
    (x - r.low) / r.delta < j ↔ x < r.value j := by
  rw [div_lt_iff₀ (delta_pos hspread), value, sub_lt_iff_lt_add', mul_comm]

theorem steps_le_lastIndex (hspread : r.low < r.high) (hx : x ≤ r.high) :
    (x - r.low) / r.delta ≤ r.lastIndex := by
  rwa [steps_le_iff hspread, value_lastIndex hspread]

/-- A whole number of steps inside the range, and its successor, are indices. -/
theorem floor_lt_maxIndex (hx : x ≤ r.lastIndex) : ⌊x⌋₊ < maxIndex := by
  have hfloor : ⌊x⌋₊ ≤ r.lastIndex := Nat.floor_le_of_le hx
  have hcount := r.count_le_maxIndex
  rw [← r.lastIndex_add_one] at hcount
  omega

/-- Inside the range the index found is the ceiling of the distance in steps. -/
theorem indexFrom_le_iff (hspread : r.low < r.high) (hx : x ≤ r.high) :
    r.indexFrom x ≤ j ↔ r.lastIndex ≤ j ∨ x ≤ r.value j := by
  rw [← steps_le_iff hspread, indexFrom, Nat.cast_zero]
  have hlast := steps_le_lastIndex hspread hx
  set steps := (x - r.low) / r.delta
  split
  · rename_i hstart
    have hj : (0 : ℚ) ≤ j := Nat.cast_nonneg j
    exact iff_of_true (Nat.zero_le j) (Or.inr (hstart.trans hj))
  · rename_i hstart
    rw [wholePart_eq, min_eq_right (floor_lt_maxIndex hlast).le]
    dsimp only
    rw [succ_floor_eq_ceil (not_le.mp hstart).le, min_le_iff, Nat.ceil_le, or_comm]

theorem indexFromInWords?_eq (hspread : r.low < r.high) (hx : x ≤ r.high) :
    r.indexFromInWords? x = some (r.indexFrom x) := by
  have hword : ⌊(x - r.low) / r.delta⌋₊ < maxIndex :=
    floor_lt_maxIndex (steps_le_lastIndex hspread hx)
  simp only [indexFromInWords?, indexFrom, wholePart_eq, min_eq_right hword.le,
    indexAfter?_of_lt hword]
  split
  · rfl
  · split <;> rfl

/-! ## The index that is chosen -/

/-- When a value between the ends of a range is rounded to index `j` or below
it, as long as `j` is not the last index. -/
def RoundsWithin (r : ValueRange ℚ) (x : ℚ) (j : ℕ) : Snap → Prop
  | .down => x < r.value (j + 1)
  | .up => x ≤ r.value j
  | .nearest => x - r.value j ≤ r.value (j + 1) - x

theorem RoundsWithin.mono {snap : Snap} (hxy : x ≤ y) (h : r.RoundsWithin y j snap) :
    r.RoundsWithin x j snap := by
  cases snap with
  | down => exact hxy.trans_lt h
  | up => exact hxy.trans h
  | nearest =>
      simp only [RoundsWithin] at h ⊢
      linarith

theorem roundsWithin_of_le_low (hspread : r.low < r.high) (hx : x ≤ r.low) (j : ℕ)
    (snap : Snap) : r.RoundsWithin x j snap := by
  have hvalue : x ≤ r.value j := hx.trans (low_le_value hspread j)
  have hstep : r.value j < r.value (j + 1) := strictMono_value hspread (Nat.lt_succ_self j)
  cases snap with
  | down => exact hvalue.trans_lt hstep
  | up => exact hvalue
  | nearest =>
      simp only [RoundsWithin]
      linarith

theorem not_roundsWithin_of_high_le (hspread : r.low < r.high) (hx : r.high ≤ x)
    (hj : j < r.lastIndex) (snap : Snap) : ¬ r.RoundsWithin x j snap := by
  have hnext : r.value (j + 1) ≤ x := by
    refine le_trans ?_ hx
    rw [← value_lastIndex hspread]
    exact (strictMono_value hspread).monotone hj
  have hstep : r.value j < r.value (j + 1) := strictMono_value hspread (Nat.lt_succ_self j)
  cases snap with
  | down => exact not_lt.mpr hnext
  | up => exact not_le.mpr (hstep.trans_le hnext)
  | nearest =>
      simp only [RoundsWithin, not_le]
      linarith

theorem discretize_of_le_low (hx : x ≤ r.low) (snap : Snap) : r.discretize x snap = 0 := by
  cases snap <;> rw [discretize, if_pos hx]

theorem discretize_of_high_le (hspread : r.low < r.high) (hx : r.high ≤ x) (snap : Snap) :
    r.discretize x snap = r.lastIndex := by
  have hlow : ¬ x ≤ r.low := not_le.mpr (hspread.trans_le hx)
  cases snap <;> rw [discretize, if_neg hlow, if_pos hx]

/-- A value between the ends is rounded to an index or below it exactly if the
index is the last one or the way of rounding says so. -/
theorem discretize_le_iff_of_between (hspread : r.low < r.high) (hlow : r.low < x)
    (hhigh : x < r.high) (snap : Snap) :
    r.discretize x snap ≤ j ↔ r.lastIndex ≤ j ∨ r.RoundsWithin x j snap := by
  have hlow' : ¬ x ≤ r.low := not_le.mpr hlow
  have hhigh' : ¬ r.high ≤ x := not_le.mpr hhigh
  have hdelta := delta_pos hspread
  cases snap with
  | down =>
      have hlast : (x - r.low) / r.delta < r.lastIndex := by
        rwa [steps_lt_iff hspread, value_lastIndex hspread]
      have hstart : 0 ≤ (x - r.low) / r.delta := div_nonneg (sub_pos.mpr hlow).le hdelta.le
      have hfloor : ⌊(x - r.low) / r.delta⌋₊ < r.lastIndex := (Nat.floor_lt hstart).mpr hlast
      have hiff : ⌊(x - r.low) / r.delta⌋₊ ≤ j ↔ x < r.value (j + 1) := by
        rw [← Nat.lt_succ_iff, Nat.floor_lt hstart, steps_lt_iff hspread]
      -- From the last index on the condition holds by itself, the value being below the end.
      rw [discretize, if_neg hlow', if_neg hhigh', wholePart_eq,
        min_eq_right (floor_lt_maxIndex hlast.le).le, RoundsWithin, hiff, or_iff_right_of_imp]
      intro hj
      exact hiff.mp (hfloor.le.trans hj)
  | up =>
      rw [discretize, if_neg hlow', if_neg hhigh', indexFrom_le_iff hspread hhigh.le,
        RoundsWithin]
  | nearest =>
      have hhalf : x - r.delta / ((2 : ℕ) : ℚ) ≤ r.high :=
        (sub_le_self x (by positivity)).trans hhigh.le
      rw [discretize, if_neg hlow', if_neg hhigh', indexFrom_le_iff hspread hhalf,
        RoundsWithin, value_succ, Nat.cast_ofNat]
      apply or_congr_right
      constructor
      · intro h
        linarith
      · intro h
        linarith

/-- A value is rounded to an index or below it exactly if the index is the last
one or the way of rounding says so. -/
theorem discretize_le_iff (hspread : r.low < r.high) {snap : Snap} :
    r.discretize x snap ≤ j ↔ r.lastIndex ≤ j ∨ r.RoundsWithin x j snap := by
  rcases le_or_gt x r.low with hlow | hlow
  · rw [discretize_of_le_low hlow]
    exact iff_of_true (Nat.zero_le j) (Or.inr (roundsWithin_of_le_low hspread hlow j snap))
  rcases le_or_gt r.high x with hhigh | hhigh
  · rw [discretize_of_high_le hspread hhigh, iff_self_or]
    intro hwithin
    by_contra hj
    exact not_roundsWithin_of_high_le hspread hhigh (Nat.lt_of_not_le hj) snap hwithin
  · exact discretize_le_iff_of_between hspread hlow hhigh snap

/-- The index word is wide enough for every rounding. -/
theorem discretizeInWords?_eq (r : ValueRange ℚ) (x : ℚ) (snap : Snap) :
    r.discretizeInWords? x snap = some (r.discretize x snap) := by
  unfold discretizeInWords? discretize
  split
  · rfl
  rename_i hlow
  split
  · rfl
  rename_i hhigh
  have hspread : r.low < r.high := (not_le.mp hlow).trans (not_le.mp hhigh)
  have hx : x ≤ r.high := (not_le.mp hhigh).le
  cases snap with
  | down => rfl
  | up => exact indexFromInWords?_eq hspread hx
  | nearest =>
      refine indexFromInWords?_eq hspread ((sub_le_self x ?_).trans hx)
      exact div_nonneg (delta_pos hspread).le (Nat.cast_nonneg 2)

/-! ## What rounding does -/

theorem discretize_le_lastIndex (hspread : r.low < r.high) (x : ℚ) (snap : Snap) :
    r.discretize x snap ≤ r.lastIndex :=
  (discretize_le_iff hspread).mpr (Or.inl le_rfl)

/-- Every way of rounding gives an index of the range. -/
theorem discretize_lt_count (r : ValueRange ℚ) (x : ℚ) (snap : Snap) :
    r.discretize x snap < r.count := by
  rw [lt_count_iff]
  rcases r.low_le_high.eq_or_lt with hflat | hspread
  · rcases le_or_gt x r.low with hx | hx
    · rw [discretize_of_le_low hx]
      exact Nat.zero_le _
    · cases snap <;> rw [discretize, if_neg (not_le.mpr hx), if_pos (hflat ▸ hx.le)]
  · exact discretize_le_lastIndex hspread x snap

/-- A larger value is not rounded to a smaller index. -/
theorem monotone_discretize (hspread : r.low < r.high) (snap : Snap) :
    Monotone fun x => r.discretize x snap := by
  intro x y hxy
  have hy : r.lastIndex ≤ r.discretize y snap ∨
      r.RoundsWithin y (r.discretize y snap) snap := (discretize_le_iff hspread).mp le_rfl
  exact (discretize_le_iff hspread).mpr (hy.imp_right (RoundsWithin.mono hxy))

/-- Every way of rounding sends a grid value to its own index. -/
theorem discretize_value (hspread : r.low < r.high) (hj : j ≤ r.lastIndex) (snap : Snap) :
    r.discretize (r.value j) snap = j := by
  apply le_antisymm
  · rw [discretize_le_iff hspread]
    right
    have hstep : r.value j < r.value (j + 1) := strictMono_value hspread (Nat.lt_succ_self j)
    cases snap with
    | down => exact hstep
    | up => exact le_refl (r.value j)
    | nearest =>
        simp only [RoundsWithin]
        linarith
  · cases j with
    | zero => exact Nat.zero_le _
    | succ j =>
        have hstep : r.value j < r.value (j + 1) := strictMono_value hspread (Nat.lt_succ_self j)
        rw [Nat.succ_le_iff, ← not_le, discretize_le_iff hspread, not_or]
        refine ⟨by omega, ?_⟩
        cases snap with
        | down => exact lt_irrefl (r.value (j + 1))
        | up => exact not_le.mpr hstep
        | nearest =>
            simp only [RoundsWithin]
            linarith

/-! ## Which index is chosen -/

/-- The indices of a range whose values satisfy a condition. -/
def indicesWhere (r : ValueRange ℚ) (p : ℚ → Prop) : Set ℕ :=
  {j | j < r.count ∧ p (r.value j)}

/-- The indices of a range whose values are closest to `x`. -/
def closestIndices (r : ValueRange ℚ) (x : ℚ) : Set ℕ :=
  r.indicesWhere fun y => ∀ i < r.count, |x - y| ≤ |x - r.value i|

theorem indicesWhere_le_eq_empty (hspread : r.low < r.high) (hx : x < r.low) :
    r.indicesWhere (· ≤ x) = ∅ := by
  refine Set.eq_empty_iff_forall_notMem.mpr ?_
  rintro j ⟨-, hvalue⟩
  exact absurd hx (not_lt.mpr ((low_le_value hspread j).trans hvalue))

theorem indicesWhere_ge_eq_empty (hspread : r.low < r.high) (hx : r.high < x) :
    r.indicesWhere (x ≤ ·) = ∅ := by
  refine Set.eq_empty_iff_forall_notMem.mpr ?_
  rintro j ⟨hj, hvalue⟩
  have hhigh := value_le_high hspread (lt_count_iff.mp hj)
  exact absurd hx (not_lt.mpr (hvalue.trans hhigh))

theorem isGreatest_discretize_down (hspread : r.low < r.high) (hx : r.low ≤ x) :
    IsGreatest (r.indicesWhere (· ≤ x)) (r.discretize x .down) := by
  constructor
  · refine ⟨lt_count_iff.mpr (discretize_le_lastIndex hspread x .down), ?_⟩
    cases hj : r.discretize x .down with
    | zero => rwa [value_zero]
    | succ j =>
        have hnot : ¬ r.discretize x .down ≤ j := by omega
        rw [discretize_le_iff hspread, not_or] at hnot
        exact not_lt.mp hnot.2
  · rintro i ⟨hi, hvalue⟩
    by_contra hlt
    obtain ⟨j, rfl⟩ := Nat.exists_eq_succ_of_ne_zero (Nat.ne_zero_of_lt (not_le.mp hlt))
    have hle : r.discretize x .down ≤ j := Nat.lt_succ_iff.mp (not_le.mp hlt)
    rcases (discretize_le_iff hspread).mp hle with hlast | hbelow
    · have hi' : j + 1 ≤ r.lastIndex := lt_count_iff.mp hi
      omega
    · exact (not_lt.mpr hvalue) hbelow

theorem isLeast_discretize_up (hspread : r.low < r.high) (hx : x ≤ r.high) :
    IsLeast (r.indicesWhere (x ≤ ·)) (r.discretize x .up) := by
  constructor
  · have hle := discretize_le_lastIndex hspread x .up
    refine ⟨lt_count_iff.mpr hle, ?_⟩
    rcases (discretize_le_iff hspread).mp (le_refl (r.discretize x .up)) with hlast | hvalue
    · rwa [le_antisymm hle hlast, value_lastIndex hspread]
    · exact hvalue
  · rintro i ⟨-, hvalue⟩
    exact (discretize_le_iff hspread).mpr (Or.inr hvalue)

/-- The index to which a value is rounded is closer than every lower one. -/
theorem abs_sub_lt_of_lt_discretize (hspread : r.low < r.high) {i : ℕ}
    (hi : i < r.discretize x .nearest) :
    |x - r.value (r.discretize x .nearest)| < |x - r.value i| := by
  have hmono := strictMono_value hspread
  obtain ⟨j, hj⟩ := Nat.exists_eq_succ_of_ne_zero (Nat.ne_zero_of_lt hi)
  have hnot : ¬ r.discretize x .nearest ≤ j := by omega
  rw [discretize_le_iff hspread, not_or, RoundsWithin, not_le] at hnot
  rw [hj] at hi ⊢
  have hlower : r.value i ≤ r.value j := hmono.monotone (Nat.lt_succ_iff.mp hi)
  have hstep : r.value i < r.value (j + 1) := hmono hi
  refine lt_of_lt_of_le (abs_lt.mpr ⟨?_, ?_⟩) (le_abs_self (x - r.value i))
  · linarith [hnot.2]
  · linarith

/-- No higher index is closer than the one to which a value is rounded. -/
theorem abs_sub_le_of_discretize_lt (hspread : r.low < r.high) {i : ℕ}
    (hi : r.discretize x .nearest < i) (hcount : i < r.count) :
    |x - r.value (r.discretize x .nearest)| ≤ |x - r.value i| := by
  have hmono := (strictMono_value hspread).monotone
  have hlast : ¬ r.lastIndex ≤ r.discretize x .nearest := by
    have := lt_count_iff.mp hcount
    omega
  have hwithin : r.RoundsWithin x (r.discretize x .nearest) .nearest :=
    ((discretize_le_iff hspread).mp le_rfl).resolve_left hlast
  rw [RoundsWithin] at hwithin
  have hhigher : r.value (r.discretize x .nearest + 1) ≤ r.value i := hmono hi
  have hstep : r.value (r.discretize x .nearest) ≤ r.value i := hmono hi.le
  rw [abs_sub_comm x (r.value i)]
  refine le_trans (abs_le.mpr ⟨?_, ?_⟩) (le_abs_self (r.value i - x))
  · linarith
  · linarith

theorem isLeast_discretize_nearest (hspread : r.low < r.high) (x : ℚ) :
    IsLeast (r.closestIndices x) (r.discretize x .nearest) := by
  have hcount : r.discretize x .nearest < r.count :=
    lt_count_iff.mpr (discretize_le_lastIndex hspread x .nearest)
  constructor
  · refine ⟨hcount, fun i hi => ?_⟩
    rcases lt_trichotomy i (r.discretize x .nearest) with hlt | rfl | hgt
    · exact (abs_sub_lt_of_lt_discretize hspread hlt).le
    · exact le_rfl
    · exact abs_sub_le_of_discretize_lt hspread hgt hi
  · rintro i ⟨-, hclosest⟩
    by_contra hlt
    have hfar := abs_sub_lt_of_lt_discretize hspread (not_le.mp hlt)
    exact (hclosest _ hcount).not_gt hfar

end ValueRange

/-! ## The variables of a domain -/

namespace Domain

variable {d : Domain ℚ} {k j : ℕ} {v : Variable ℚ} {x y : ℚ}

/-- The indices of the variable at position `k` whose values satisfy a
condition. -/
def indicesWhere (d : Domain ℚ) (k : ℕ) (p : ℚ → Prop) : Set ℕ :=
  {j | ∃ y, d.valueAt? k j = some y ∧ p y}

/-- The indices of the variable at position `k` whose values are closest
to `x`. -/
def closestIndices (d : Domain ℚ) (k : ℕ) (x : ℚ) : Set ℕ :=
  d.indicesWhere k fun y => ∀ i z, d.valueAt? k i = some z → |x - y| ≤ |x - z|

theorem discretize_eq (hv : d.var? k = some v) (x : ℚ) (snap : Snap) :
    d.discretize k x snap = v.discretize x snap := by
  rw [discretize, hv]

theorem discretizeInWords?_eq (d : Domain ℚ) (k : ℕ) (x : ℚ) (snap : Snap) :
    d.discretizeInWords? k x snap = some (d.discretize k x snap) := by
  unfold discretizeInWords? discretize
  split
  · rfl
  · exact ValueRange.discretizeInWords?_eq _ x snap

theorem snappedInWords?_eq (d : Domain ℚ) (k : ℕ) (x : ℚ) (snap : Snap) :
    d.snappedInWords? k x snap = (d.snapped? k x snap).getM := by
  rw [snappedInWords?, discretizeInWords?_eq, lift_some, pure_bind, snapped?]

theorem pointCount_eq (hv : d.var? k = some v) : d.pointCount k = v.count := by
  rw [pointCount, hv, Option.map_some, Option.getD_some]

theorem valueAt?_eq_some_iff (hv : d.var? k = some v) :
    d.valueAt? k j = some y ↔ j < v.count ∧ v.value j = y := by
  simp only [valueAt?, hv, Option.ite_none_right_eq_some, Option.some.injEq]

theorem indicesWhere_eq (hv : d.var? k = some v) (p : ℚ → Prop) :
    d.indicesWhere k p = v.indicesWhere p := by
  ext j
  constructor
  · rintro ⟨y, hy, hp⟩
    obtain ⟨hj, rfl⟩ := (valueAt?_eq_some_iff hv).mp hy
    exact ⟨hj, hp⟩
  · rintro ⟨hj, hp⟩
    exact ⟨_, (valueAt?_eq_some_iff hv).mpr ⟨hj, rfl⟩, hp⟩

theorem closestIndices_eq (hv : d.var? k = some v) (x : ℚ) :
    d.closestIndices k x = v.closestIndices x := by
  rw [closestIndices, indicesWhere_eq hv, ValueRange.closestIndices]
  congr 1
  ext y
  constructor
  · intro h i hi
    exact h i _ ((valueAt?_eq_some_iff hv).mpr ⟨hi, rfl⟩)
  · intro h i z hz
    obtain ⟨hi, rfl⟩ := (valueAt?_eq_some_iff hv).mp hz
    exact h i hi

/-- Rounding on a variable with two different ends is exact.  Rounding down gives
the largest index whose value is not above `x`, rounding up the smallest one whose
value is not below it, and the index of an end where there is none; rounding to
the nearest gives the least of the closest indices.  Each way of rounding stays in
the range, never sends a larger value to a smaller index, and undoes the passage
from an index to its value. -/
theorem discretize_rounds (hv : d.var? k = some v) (hspread : v.low < v.high) :
    (∀ x,
      (IsGreatest (d.indicesWhere k (· ≤ x)) (d.discretize k x .down) ∨
        d.indicesWhere k (· ≤ x) = ∅ ∧ d.discretize k x .down = 0) ∧
      (IsLeast (d.indicesWhere k (x ≤ ·)) (d.discretize k x .up) ∨
        d.indicesWhere k (x ≤ ·) = ∅ ∧ d.discretize k x .up = d.pointCount k - 1) ∧
      IsLeast (d.closestIndices k x) (d.discretize k x .nearest)) ∧
    ∀ snap,
      (∀ x, d.discretize k x snap < d.pointCount k) ∧
      (Monotone fun x => d.discretize k x snap) ∧
      ∀ j y, d.valueAt? k j = some y → d.discretize k y snap = j := by
  simp only [discretize_eq hv, indicesWhere_eq hv, closestIndices_eq hv, pointCount_eq hv]
  constructor
  · intro x
    refine ⟨?_, ?_, ValueRange.isLeast_discretize_nearest hspread x⟩
    · rcases le_or_gt v.low x with hx | hx
      · exact Or.inl (ValueRange.isGreatest_discretize_down hspread hx)
      · exact Or.inr ⟨ValueRange.indicesWhere_le_eq_empty hspread hx,
          ValueRange.discretize_of_le_low hx.le .down⟩
    · rcases le_or_gt x v.high with hx | hx
      · exact Or.inl (ValueRange.isLeast_discretize_up hspread hx)
      · exact Or.inr ⟨ValueRange.indicesWhere_ge_eq_empty hspread hx,
          ValueRange.discretize_of_high_le hspread hx.le .up⟩
  · intro snap
    refine ⟨fun x => ?_, ValueRange.monotone_discretize hspread snap, ?_⟩
    · exact ValueRange.lt_count_iff.mpr (ValueRange.discretize_le_lastIndex hspread x snap)
    · intro j y hy
      obtain ⟨hj, rfl⟩ := (valueAt?_eq_some_iff hv).mp hy
      exact ValueRange.discretize_value hspread (ValueRange.lt_count_iff.mp hj) snap

/-- The domain of a variable with four values from 3 to 4 and one with five
values from -1 to 5. -/
def gauge : Domain ℚ where
  vars := [{
    name := "x"
    low := 3
    high := 4
    points := 4
    low_finite := rfl
    high_finite := rfl
    ordered := by decide
    points_ne_zero := by decide
    single := by decide }, {
    name := "y"
    low := -1
    high := 5
    points := 5
    low_finite := rfl
    high_finite := rfl
    ordered := by decide
    points_ne_zero := by decide
    single := by decide }]
  unique := by decide

/-- The midpoint between the values -1 and 1/2 is closest to the lower one of
them, which also lies below it, and 1/2 is the first value above it. -/
theorem discretize_rounds_gauge :
    IsLeast (gauge.closestIndices 1 (-1 / 4)) 0 ∧
      IsGreatest (gauge.indicesWhere 1 (· ≤ -1 / 4)) 0 ∧
      IsLeast (gauge.indicesWhere 1 (-1 / 4 ≤ ·)) 1 ∧
      gauge.discretize 1 (1 / 2) .nearest = 1 := by
  obtain ⟨hrounds, hsnaps⟩ := discretize_rounds (d := gauge) (k := 1) rfl (by decide)
  obtain ⟨hdown, hup, hnearest⟩ := hrounds (-1 / 4)
  have hbelow : 0 ∈ gauge.indicesWhere 1 (· ≤ -1 / 4) := ⟨-1, by decide +kernel, by norm_num⟩
  have habove : 1 ∈ gauge.indicesWhere 1 (-1 / 4 ≤ ·) :=
    ⟨1 / 2, by decide +kernel, by norm_num⟩
  have hdown' := hdown.resolve_right fun h => Set.notMem_empty 0 (h.1 ▸ hbelow)
  have hup' := hup.resolve_right fun h => Set.notMem_empty 1 (h.1 ▸ habove)
  have hzero : gauge.discretize 1 (-1 / 4) .nearest = 0 := by decide +kernel
  have hlower : gauge.discretize 1 (-1 / 4) .down = 0 := by decide +kernel
  have hupper : gauge.discretize 1 (-1 / 4) .up = 1 := by decide +kernel
  rw [hzero] at hnearest
  rw [hlower] at hdown'
  rw [hupper] at hup'
  exact ⟨hnearest, hdown', hup', (hsnaps .nearest).2.2 1 _ (by decide +kernel)⟩

end Domain

end IntervalProgramming
