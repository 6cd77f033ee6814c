import Mathlib.Algebra.Order.Group.MinMax
import IntervalProgramming.Proofs.Box.Membership
import IntervalProgramming.Proofs.Scalar.Rational

/-!
# Values of a box

Over the rational numbers the value of a box at a tuple is its intercept plus
the product of its slopes with the tuple, its greatest value is the intercept
plus the product with the best ends, and the best ends are a tuple of the box.
An intersection takes the sum of the two values.
-/

namespace IntervalProgramming

/-- The sum of the products of slopes and indices. -/
def slopeSum : List ℚ → List ℕ → ℚ
  | s :: slopes, j :: tuple => s * j + slopeSum slopes tuple
  | _, _ => 0

/-- The sum over the extents of the greater product of slope and end. -/
def topSum : List Extent → List ℚ → ℚ
  | e :: es, s :: slopes => (s * e.lo) ⊔ (s * e.hi) + topSum es slopes
  | _, _ => 0

theorem Extent.slope_le_top {e : Extent} {j : ℕ} (h : e.Has j) (s : ℚ) :
    s * j ≤ (s * e.lo) ⊔ (s * e.hi) := by
  have hlo : (e.lo : ℚ) ≤ j := by exact_mod_cast h.1
  have hhi : (j : ℚ) ≤ e.hi := by exact_mod_cast h.2
  rcases le_total 0 s with hs | hs
  · exact (mul_le_mul_of_nonneg_left hhi hs).trans (le_max_right _ _)
  · exact (mul_le_mul_of_nonpos_left hlo hs).trans (le_max_left _ _)

theorem Extent.slope_best_end (e : Extent) (s : ℚ) :
    s * ((if 0 < s then e.hi else e.lo : ℕ) : ℚ) = (s * e.lo) ⊔ (s * e.hi) := by
  have hle : (e.lo : ℚ) ≤ e.hi := by exact_mod_cast e.le
  split
  · rename_i hs
    exact (max_eq_right (mul_le_mul_of_nonneg_left hle hs.le)).symm
  · rename_i hs
    exact (max_eq_left (mul_le_mul_of_nonpos_left hle (not_lt.mp hs))).symm

theorem Extent.has_best_end (e : Extent) (s : ℚ) :
    e.Has (if 0 < s then e.hi else e.lo) := by
  by_cases hs : 0 < s
  · rw [if_pos hs]
    exact ⟨e.le, le_refl e.hi⟩
  · rw [if_neg hs]
    exact e.has_lo

theorem slopeSum_le_topSum {es : List Extent} {tuple : List ℕ}
    (h : List.Forall₂ Extent.Has es tuple) (slopes : List ℚ) :
    slopeSum slopes tuple ≤ topSum es slopes := by
  induction h generalizing slopes with
  | nil => cases slopes <;> simp [slopeSum, topSum]
  | cons he _ ih =>
      cases slopes with
      | nil => simp [slopeSum, topSum]
      | cons s slopes =>
          have hhead := Extent.slope_le_top he s
          have htail := ih slopes
          simp only [slopeSum, topSum]
          linarith

theorem slopeSum_zipWith_add {ss ts : List ℚ} (h : ss.length = ts.length)
    (tuple : List ℕ) :
    slopeSum (List.zipWith (· + ·) ss ts) tuple =
      slopeSum ss tuple + slopeSum ts tuple := by
  induction ss generalizing ts tuple with
  | nil =>
      cases ts with
      | nil => simp [slopeSum]
      | cons t ts => simp at h
  | cons s ss ih =>
      cases ts with
      | nil => simp at h
      | cons t ts =>
          cases tuple with
          | nil => simp [slopeSum]
          | cons j tuple =>
              have htail := ih (Nat.succ.inj h) tuple
              simp only [List.zipWith_cons_cons, slopeSum, htail]
              ring

theorem slopeSum_zero {ss : List ℚ} (h : ∀ s ∈ ss, s = 0) (tuple : List ℕ) :
    slopeSum ss tuple = 0 := by
  induction ss generalizing tuple with
  | nil => simp [slopeSum]
  | cons s ss ih =>
      cases tuple with
      | nil => simp [slopeSum]
      | cons j tuple =>
          obtain ⟨hs, hrest⟩ := List.forall_mem_cons.mp h
          rw [slopeSum, ih hrest, hs]
          ring

theorem slopeSum_map_mul (ss : List ℚ) (c : ℚ) (tuple : List ℕ) :
    slopeSum (ss.map (· * c)) tuple = slopeSum ss tuple * c := by
  induction ss generalizing tuple with
  | nil => simp [slopeSum]
  | cons s ss ih =>
      cases tuple with
      | nil => simp [slopeSum]
      | cons j tuple =>
          rw [List.map_cons, slopeSum, slopeSum, ih]
          ring

theorem topSum_map_mul (es : List Extent) (ss : List ℚ) {c : ℚ} (hc : 0 ≤ c) :
    topSum es (ss.map (· * c)) = topSum es ss * c := by
  induction es generalizing ss with
  | nil => simp [topSum]
  | cons e es ih =>
      cases ss with
      | nil => simp [topSum]
      | cons s ss =>
          rw [List.map_cons, topSum, topSum, ih, add_mul, max_mul_of_nonneg _ _ hc,
            mul_right_comm s c, mul_right_comm s c]

namespace Box

theorem eval_eq (b : Box ℚ) (tuple : List ℕ) :
    b.eval tuple = b.intercept + slopeSum b.slopes tuple := by
  unfold eval
  generalize b.intercept = start
  generalize b.slopes = slopes
  induction slopes generalizing start tuple with
  | nil => simp [slopeSum]
  | cons s slopes ih =>
      cases tuple with
      | nil => simp [slopeSum]
      | cons j tuple =>
          rw [List.zip_cons_cons, List.foldl_cons, ih, slopeSum]
          ring

theorem maxVal_eq (b : Box ℚ) :
    b.maxVal = b.intercept + topSum b.extents b.slopes := by
  unfold maxVal
  generalize b.intercept = start
  generalize b.extents = es
  generalize b.slopes = slopes
  induction es generalizing start slopes with
  | nil => simp [topSum]
  | cons e es ih =>
      cases slopes with
      | nil => simp [topSum]
      | cons s slopes =>
          rw [List.zip_cons_cons, List.foldl_cons, ih, topSum, ← Scalar.max_eq]
          ring

/-- The smallest value of a box is where its negative is largest. -/
theorem minVal_eq (b : Box ℚ) :
    b.minVal = b.intercept - topSum b.extents (b.slopes.map (· * -1)) := by
  unfold minVal
  generalize b.intercept = start
  generalize b.extents = es
  generalize b.slopes = slopes
  induction es generalizing start slopes with
  | nil => simp [topSum]
  | cons e es ih =>
      cases slopes with
      | nil => simp [topSum]
      | cons s slopes =>
          have hmin : Scalar.min (s * (e.lo : ℚ)) (s * (e.hi : ℚ)) =
              -((s * -1 * e.lo) ⊔ (s * -1 * e.hi)) := by
            rw [Scalar.min_eq, mul_neg_one, neg_mul, neg_mul, max_neg_neg, neg_neg]
          rw [List.zip_cons_cons, List.foldl_cons, ih, List.map_cons, topSum]
          dsimp only
          rw [hmin]
          ring

/-- No tuple of a box has a value above its greatest value. -/
theorem eval_le_maxVal {b : Box ℚ} {tuple : List ℕ}
    (h : b.contains tuple = true) : b.eval tuple ≤ b.maxVal := by
  rw [eval_eq, maxVal_eq]
  have := slopeSum_le_topSum (contains_eq_true_iff.mp h) b.slopes
  linarith

/-- The greatest value is taken at the point where it is reported. -/
theorem eval_maxPoint (b : Box ℚ) : b.eval b.maxPoint = b.maxVal := by
  rw [eval_eq, maxVal_eq, maxPoint]
  congr 1
  generalize b.extents = es
  generalize b.slopes = slopes
  induction es generalizing slopes with
  | nil => cases slopes <;> simp [slopeSum, topSum]
  | cons e es ih =>
      cases slopes with
      | nil => simp [slopeSum, topSum]
      | cons s slopes =>
          rw [List.zip_cons_cons, List.map_cons, slopeSum, topSum, ih]
          congr 1
          exact e.slope_best_end s

theorem contains_maxPoint {b : Box ℚ}
    (h : b.slopes.length = b.extents.length) :
    b.contains b.maxPoint = true := by
  rw [contains_eq_true_iff, maxPoint]
  generalize b.extents = es at h
  generalize b.slopes = slopes at h
  induction es generalizing slopes with
  | nil => simp
  | cons e es ih =>
      cases slopes with
      | nil => simp at h
      | cons s slopes =>
          rw [List.zip_cons_cons, List.map_cons]
          exact List.Forall₂.cons (e.has_best_end s) (ih slopes (Nat.succ.inj h))

theorem evalAs_le_maxValAs {b : Box ℚ} {tuple : List ℕ}
    (h : b.contains tuple = true) (degree : Degree) :
    b.evalAs tuple degree ≤ b.maxValAs degree := by
  cases degree with
  | constant => exact le_refl b.intercept
  | linear => exact eval_le_maxVal h

/-! ## Regions -/

theorem extents_asLinear (b : Box ℚ) (degree : Degree) :
    (b.asLinear degree).extents = b.extents := by
  cases degree <;> rfl

theorem length_slopes_asLinear (b : Box ℚ) (degree : Degree) :
    (b.asLinear degree).slopes.length = b.slopes.length := by
  cases degree <;> simp [asLinear]

theorem contains_asLinear (b : Box ℚ) (degree : Degree) (tuple : List ℕ) :
    (b.asLinear degree).contains tuple = b.contains tuple := by
  simp only [contains, extents_asLinear]

/-- A region that starts from a box takes the values of the box as read. -/
theorem eval_asLinear (b : Box ℚ) (degree : Degree) (tuple : List ℕ) :
    (b.asLinear degree).eval tuple = b.evalAs tuple degree := by
  cases degree with
  | constant =>
      rw [eval_eq, slopeSum_zero]
      · exact add_zero b.intercept
      · intro s hs
        simp only [asLinear, List.mem_map] at hs
        obtain ⟨_, -, rfl⟩ := hs
        exact Nat.cast_zero
  | linear => rfl

/-- At every tuple an intersection takes the sum of the values of both boxes,
the second as read. -/
theorem eval_meetAs? {b c r : Box ℚ} {degree : Degree}
    (hb : b.slopes.length = b.extents.length)
    (hc : c.slopes.length = c.extents.length)
    (h : b.meetAs? c degree = some r) (tuple : List ℕ) :
    r.eval tuple = b.eval tuple + c.evalAs tuple degree := by
  obtain ⟨hdim, -, hslopes, hintercept⟩ := meetAs?_eq_some_iff.mp h
  rw [eval_eq, hslopes, hintercept, eval_eq b]
  cases degree with
  | constant =>
      simp only [evalAs]
      ring
  | linear =>
      have hlen : b.slopes.length = c.slopes.length := by
        rw [hb, hc, ← length_dimensions, ← length_dimensions, hdim]
      rw [evalAs, eval_eq, slopeSum_zipWith_add hlen]
      ring

theorem maxPoint_ofPoint (tuple : List ℕ) (value : ℚ) :
    ({ (ofPoint tuple : Box ℚ) with intercept := value } : Box ℚ).maxPoint =
      tuple := by
  set b : Box ℚ := { (ofPoint tuple : Box ℚ) with intercept := value }
  have hlen : b.slopes.length = b.extents.length := by
    simp [b, ofPoint, ofIntervals, flat]
  have hmem : (ofPoint tuple : Box ℚ).contains b.maxPoint = true :=
    contains_maxPoint hlen
  exact (contains_ofPoint tuple _).mp hmem

end Box

end IntervalProgramming
