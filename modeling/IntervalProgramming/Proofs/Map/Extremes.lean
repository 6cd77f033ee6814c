import IntervalProgramming.Proofs.Map.Rescaling
import IntervalProgramming.Proofs.Scalar.Maximum

/-!
# Extremes of a map

The extreme values that a map reports box by box are the extremes of its values
over all tuples it covers, and the tuple it reports for the greatest one is the
least of those in the first box that reaches it.
-/

namespace IntervalProgramming

/-! ## Extremes of a box -/

/-- An index with the greater product of slope and end is not below the best
end. -/
theorem Extent.best_end_le {e : Extent} {j : ℕ} (h : e.Has j) {s : ℚ}
    (htop : s * j = (s * e.lo) ⊔ (s * e.hi)) :
    (if 0 < s then e.hi else e.lo) ≤ j := by
  by_cases hs : 0 < s
  · rw [if_pos hs]
    have hhi : s * e.hi ≤ s * j := (le_max_right _ _).trans htop.ge
    exact_mod_cast le_of_mul_le_mul_left hhi hs
  · rw [if_neg hs]
    exact h.1

namespace Box

/-- The values a box takes at its tuples. -/
def values (b : Box ℚ) (degree : Degree) : Set ℚ :=
  {x | ∃ tuple, b.contains tuple = true ∧ b.evalAs tuple degree = x}

variable {b : Box ℚ}

theorem contains_maxPointAs (h : b.slopes.length = b.extents.length) (degree : Degree) :
    b.contains (b.maxPointAs degree) = true := by
  cases degree with
  | constant => exact b.contains_lows
  | linear => exact contains_maxPoint h

theorem evalAs_maxPointAs (b : Box ℚ) (degree : Degree) :
    b.evalAs (b.maxPointAs degree) degree = b.maxValAs degree := by
  cases degree with
  | constant => rfl
  | linear => exact b.eval_maxPoint

theorem isGreatest_maxValAs (h : b.slopes.length = b.extents.length) (degree : Degree) :
    IsGreatest (b.values degree) (b.maxValAs degree) := by
  constructor
  · exact ⟨b.maxPointAs degree, contains_maxPointAs h degree, b.evalAs_maxPointAs degree⟩
  · rintro _ ⟨tuple, htuple, rfl⟩
    exact evalAs_le_maxValAs htuple degree

/-- The smallest value of a box is the negative of the greatest of its negative. -/
theorem minValAs_eq (b : Box ℚ) (degree : Degree) :
    b.minValAs degree = -(b.scale (-1)).maxValAs degree := by
  cases degree with
  | constant =>
      simp only [minValAs, maxValAs, scale]
      ring
  | linear =>
      simp only [minValAs, maxValAs, minVal_eq, maxVal_eq, scale]
      ring

theorem isLeast_minValAs (h : b.slopes.length = b.extents.length) (degree : Degree) :
    IsLeast (b.values degree) (b.minValAs degree) := by
  have hscale : (b.scale (-1)).slopes.length = (b.scale (-1)).extents.length := by
    rw [scale, List.length_map, h]
  have hvalue : ∀ tuple, (b.scale (-1)).evalAs tuple degree = -b.evalAs tuple degree := by
    intro tuple
    rw [evalAs_scale, mul_neg_one]
  obtain ⟨⟨tuple, htuple, hmax⟩, hbound⟩ := isGreatest_maxValAs hscale degree
  rw [minValAs_eq]
  constructor
  · refine ⟨tuple, htuple, ?_⟩
    rw [← hmax, hvalue, neg_neg]
  · rintro _ ⟨other, hother, rfl⟩
    rw [neg_le, ← hvalue]
    exact hbound ⟨other, hother, rfl⟩

/-- Extent by extent the best end is the least index with the best product, if
these products sum to the best sum. -/
theorem forall₂_best_ends_le {es : List Extent} {tuple : List ℕ}
    (h : List.Forall₂ Extent.Has es tuple) {slopes : List ℚ}
    (hlength : slopes.length = es.length)
    (htop : slopeSum slopes tuple = topSum es slopes) :
    List.Forall₂ (· ≤ ·)
      ((es.zip slopes).map fun (e, s) => if 0 < s then e.hi else e.lo) tuple := by
  induction h generalizing slopes with
  | nil => exact List.Forall₂.nil
  | @cons e j es tuple he hes ih =>
      rcases slopes with _ | ⟨s, slopes⟩
      · cases hlength
      · have hhead := Extent.slope_le_top he s
        have hrest := slopeSum_le_topSum hes slopes
        rw [slopeSum, topSum] at htop
        rw [List.zip_cons_cons, List.map_cons]
        -- No product is above its best, so equal sums have equal terms.
        refine List.Forall₂.cons (Extent.best_end_le he ?_) (ih (Nat.succ.inj hlength) ?_)
        · linarith
        · linarith

/-- The point reported for the greatest value is componentwise the least tuple
of the box that takes it. -/
theorem forall₂_maxPointAs_le (h : b.slopes.length = b.extents.length) {degree : Degree}
    {tuple : List ℕ} (htuple : b.contains tuple = true)
    (hvalue : b.evalAs tuple degree = b.maxValAs degree) :
    List.Forall₂ (· ≤ ·) (b.maxPointAs degree) tuple := by
  rw [contains_eq_true_iff] at htuple
  cases degree with
  | constant =>
      rw [maxPointAs, lows, List.forall₂_map_left_iff]
      exact htuple.imp fun _ _ he => he.1
  | linear =>
      rw [evalAs, maxValAs, eval_eq, maxVal_eq, add_right_inj] at hvalue
      exact forall₂_best_ends_le htuple h hvalue

end Box

namespace PiecewiseMap

variable {m : PiecewiseMap ℚ}

/-! ## Extremes over the boxes -/

/-- The values a map takes at the tuples it covers. -/
def values (m : PiecewiseMap ℚ) : Set ℚ :=
  {x | ∃ tuple, m.eval? tuple = some x}

theorem mem_values_iff (hfull : m.IsFull) (hdisjoint : m.IsDisjoint) {x : ℚ} :
    x ∈ m.values ↔ ∃ b ∈ m.boxes.toList, x ∈ b.values m.degree := by
  constructor
  · rintro ⟨tuple, hx⟩
    obtain ⟨b, hb, htuple, hvalue⟩ := exists_of_eval?_eq_some hfull hx
    exact ⟨b, Array.mem_toList_iff.mpr hb, tuple, htuple, hvalue⟩
  · rintro ⟨b, hb, tuple, htuple, rfl⟩
    exact ⟨tuple, eval?_of_contains hfull hdisjoint (Array.mem_toList_iff.mp hb) htuple⟩

theorem isGreatest_of_maxWeight? {greatest : ℚ} (h : m.maxWeight? = some greatest) :
    IsGreatest {x | ∃ b ∈ m.boxes.toList, b.maxValAs m.degree = x} greatest := by
  simpa only [List.mem_map] using Scalar.isGreatest_largest? h

theorem isLeast_of_minWeight? {least : ℚ} (h : m.minWeight? = some least) :
    IsLeast {x | ∃ b ∈ m.boxes.toList, b.minValAs m.degree = x} least := by
  simpa only [List.mem_map] using Scalar.isLeast_smallest? h

theorem isGreatest_maxWeight? (hfull : m.IsFull) (hmodelled : m.IsModelled)
    (hdisjoint : m.IsDisjoint) {greatest : ℚ} (h : m.maxWeight? = some greatest) :
    IsGreatest m.values greatest := by
  have hbox : ∀ b ∈ m.boxes.toList, IsGreatest (b.values m.degree) (b.maxValAs m.degree) :=
    fun b hb => Box.isGreatest_maxValAs (hmodelled b (Array.mem_toList_iff.mp hb)) m.degree
  obtain ⟨⟨b, hb, rfl⟩, hbound⟩ := isGreatest_of_maxWeight? h
  constructor
  · exact (mem_values_iff hfull hdisjoint).mpr ⟨b, hb, (hbox b hb).1⟩
  · intro x hx
    obtain ⟨c, hc, hx⟩ := (mem_values_iff hfull hdisjoint).mp hx
    exact ((hbox c hc).2 hx).trans (hbound ⟨c, hc, rfl⟩)

theorem isLeast_minWeight? (hfull : m.IsFull) (hmodelled : m.IsModelled)
    (hdisjoint : m.IsDisjoint) {least : ℚ} (h : m.minWeight? = some least) :
    IsLeast m.values least := by
  have hbox : ∀ b ∈ m.boxes.toList, IsLeast (b.values m.degree) (b.minValAs m.degree) :=
    fun b hb => Box.isLeast_minValAs (hmodelled b (Array.mem_toList_iff.mp hb)) m.degree
  obtain ⟨⟨b, hb, rfl⟩, hbound⟩ := isLeast_of_minWeight? h
  constructor
  · exact (mem_values_iff hfull hdisjoint).mpr ⟨b, hb, (hbox b hb).1⟩
  · intro x hx
    obtain ⟨c, hc, hx⟩ := (mem_values_iff hfull hdisjoint).mp hx
    exact (hbound ⟨c, hc, rfl⟩).trans ((hbox c hc).2 hx)

/-! ## The first heaviest box -/

/-- One more box in the scan for the heaviest one. -/
def heavier {α : Type} [Scalar α] (degree : Degree) (best : Option (Box α)) (b : Box α) :
    Option (Box α) :=
  match best with
  | none => some b
  | some top => if top.maxValAs degree < b.maxValAs degree then some b else some top

theorem heaviestBox?_eq {α : Type} [Scalar α] (m : PiecewiseMap α) :
    m.heaviestBox? = m.boxes.toList.foldl (heavier m.degree) none :=
  rfl

theorem improves_heavier (degree : Degree) :
    Scalar.Improves (heavier degree) (fun b : Box ℚ => b.maxValAs degree) id
      (·.maxValAs degree) where
  start _ := rfl
  next _ _ := rfl
  held_find _ := rfl

/-- The heaviest box of a map is the first one of greatest value. -/
theorem exists_heaviestBox? (hne : m.isEmpty = false) :
    ∃ (ix : ℕ) (b : Box ℚ), m.boxes[ix]? = some b ∧ m.heaviestBox? = some b ∧
      (∀ c ∈ m.boxes.toList, c.maxValAs m.degree ≤ b.maxValAs m.degree) ∧
      ∀ (i : ℕ) (c : Box ℚ), m.boxes[i]? = some c →
        c.maxValAs m.degree = b.maxValAs m.degree → ix ≤ i := by
  have hboxes : m.boxes.toList ≠ [] := by
    intro hnil
    rw [isEmpty, ← Array.isEmpty_toList, hnil] at hne
    cases hne
  obtain ⟨before, b, after, hsplit, hbefore, hafter⟩ :=
    Scalar.exists_first_max (fun c : Box ℚ => c.maxValAs m.degree) hboxes
  refine ⟨before.length, b, ?_, ?_, ?_, ?_⟩
  · rw [← Array.getElem?_toList, hsplit, List.getElem?_append_right (le_refl _),
      Nat.sub_self, List.getElem?_cons_zero]
  · rw [heaviestBox?_eq, hsplit]
    refine (improves_heavier m.degree).foldl_of_first ?_ hbefore hafter
    intro top htop
    cases htop
  · intro c hc
    rw [hsplit] at hc
    rcases List.mem_append.mp hc with hc | hc
    · exact (hbefore c hc).le
    rcases List.mem_cons.mp hc with rfl | hc
    · exact le_refl _
    · exact hafter c hc
  · intro i c hc hvalue
    by_contra hlt
    rw [← Array.getElem?_toList, hsplit, List.getElem?_append_left (not_le.mp hlt)] at hc
    exact (hbefore c (List.mem_of_getElem? hc)).ne hvalue

/-! ## Extremes and where they are taken -/

/-- The extremes of a map with boxes of full dimension that do not overlap.  The
greatest and least values it reports are those it takes, and the point it
reports is in the first box that takes the greatest value, where it is
componentwise the least tuple with this value. -/
theorem extremes_attained (hne : m.isEmpty = false) (hfull : m.IsFull)
    (hmodelled : m.IsModelled) (hdisjoint : m.IsDisjoint) :
    ∃ (greatest least : ℚ) (point : List ℕ) (ix : ℕ) (b : Box ℚ),
      m.maxWeight? = some greatest ∧ IsGreatest m.values greatest ∧
      m.minWeight? = some least ∧ IsLeast m.values least ∧
      m.maxPoint? = some point ∧ m.eval? point = some greatest ∧
      m.boxes[ix]? = some b ∧
      IsLeast {i : ℕ | ∃ c : Box ℚ, m.boxes[i]? = some c ∧
        IsGreatest (c.values m.degree) greatest} ix ∧
      b.contains point = true ∧ b.evalAs point m.degree = greatest ∧
      ∀ tuple, b.contains tuple = true → b.evalAs tuple m.degree = greatest →
        List.Forall₂ (· ≤ ·) point tuple := by
  obtain ⟨least, greatest, hleast, hgreatest⟩ := exists_weights hne
  obtain ⟨ix, b, hix, hheaviest, hle, hfirst⟩ := exists_heaviestBox? hne
  have hmem := Array.mem_of_getElem? hix
  have hmodel := hmodelled b hmem
  obtain rfl : b.maxValAs m.degree = greatest := by
    obtain ⟨⟨c, hc, rfl⟩, hbound⟩ := isGreatest_of_maxWeight? hgreatest
    exact le_antisymm (hbound ⟨b, Array.mem_toList_iff.mpr hmem, rfl⟩) (hle c hc)
  have hmax := Box.isGreatest_maxValAs hmodel m.degree
  have hholds := Box.contains_maxPointAs hmodel m.degree
  have hvalue := b.evalAs_maxPointAs m.degree
  have heval := eval?_of_contains hfull hdisjoint hmem hholds
  refine ⟨_, least, b.maxPointAs m.degree, ix, b, hgreatest,
    isGreatest_maxWeight? hfull hmodelled hdisjoint hgreatest, hleast,
    isLeast_minWeight? hfull hmodelled hdisjoint hleast, ?_, ?_, hix,
    ⟨⟨b, hix, hmax⟩, ?_⟩, hholds, hvalue, ?_⟩
  · rw [maxPoint?, hheaviest, Option.map_some]
  · rw [heval, hvalue]
  · rintro i ⟨c, hc, hgreatest⟩
    have hmax' := Box.isGreatest_maxValAs (hmodelled c (Array.mem_of_getElem? hc)) m.degree
    exact hfirst i c hc (hmax'.unique hgreatest)
  · intro tuple htuple htop
    exact Box.forall₂_maxPointAs_le hmodel htuple htop

/-- Values on the two upper rows of the plate, the same in both, that rise to 4 along
the first half and fall from 4 to -4 along the second one. -/
def plateRidge : PiecewiseMap ℚ :=
  ofBoxes Domain.plate .linear
    [{ extents := [{ lo := 0, hi := 4, dim := 0 }, { lo := 1, hi := 2, dim := 1 }]
       slopes := [1, 0]
       intercept := 0 },
     { extents := [{ lo := 5, hi := 9, dim := 0 }, { lo := 1, hi := 2, dim := 1 }]
       slopes := [-2, 0]
       intercept := 14 }]

/-- Both halves of the plate reach the greatest value, the first one in two rows of
which the lower is reported. -/
theorem extremes_attained_plateRidge :
    plateRidge.maxWeight? = some 4 ∧ IsGreatest plateRidge.values 4 ∧
      plateRidge.minWeight? = some (-4) ∧ IsLeast plateRidge.values (-4) ∧
      plateRidge.maxPoint? = some [4, 1] ∧ plateRidge.eval? [4, 1] = some 4 := by
  have hfull : plateRidge.IsFull := isFull_iff_dimensions.mpr (by decide)
  have hmodelled : plateRidge.IsModelled := by
    unfold IsModelled
    decide
  have hdisjoint : plateRidge.IsDisjoint := by
    unfold IsDisjoint
    decide
  obtain ⟨greatest, least, point, ix, b, hgreatest, hmax, hleast, hmin, hpoint, heval, -⟩ :=
    extremes_attained rfl hfull hmodelled hdisjoint
  have hgreatest' : plateRidge.maxWeight? = some 4 := by decide +kernel
  have hleast' : plateRidge.minWeight? = some (-4) := by decide +kernel
  have hpoint' : plateRidge.maxPoint? = some [4, 1] := by decide +kernel
  obtain rfl := Option.some.inj (hgreatest.symm.trans hgreatest')
  obtain rfl := Option.some.inj (hleast.symm.trans hleast')
  obtain rfl := Option.some.inj (hpoint.symm.trans hpoint')
  exact ⟨hgreatest, hmax, hleast, hmin, hpoint, heval⟩

end PiecewiseMap

end IntervalProgramming
