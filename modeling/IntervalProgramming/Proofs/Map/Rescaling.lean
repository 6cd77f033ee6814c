import Mathlib.Tactic.GCongr
import IntervalProgramming.Proofs.Build.Result
import IntervalProgramming.Proofs.Fit.Points

/-!
# Values of a rescaled map

Weighting and normalising change the models of a map box by box, and with them
its values point by point, through one affine function for all boxes in either
reading of the models.  Such a function with a factor that is not negative
carries the least and the greatest value along, so a normalised map has the
ends of the range it was sent to as its extremes.
-/

namespace IntervalProgramming

/-! ## Rescaled models -/

namespace Box

theorem evalAs_scale (b : Box ℚ) (w : ℚ) (tuple : List ℕ) (degree : Degree) :
    (b.scale w).evalAs tuple degree = b.evalAs tuple degree * w := by
  cases degree with
  | constant => rfl
  | linear =>
      rw [evalAs, evalAs, eval_eq, eval_eq, scale, slopeSum_map_mul]
      ring

theorem evalAs_stretch (b : Box ℚ) (origin factor target : ℚ) (tuple : List ℕ)
    (degree : Degree) :
    (b.stretch origin factor target).evalAs tuple degree =
      (b.evalAs tuple degree - origin) * factor + target := by
  cases degree with
  | constant => rfl
  | linear =>
      rw [evalAs, evalAs, eval_eq, eval_eq, stretch, slopeSum_map_mul]
      ring

theorem evalAs_level (b : Box ℚ) (value : ℚ) (tuple : List ℕ) (degree : Degree) :
    (b.level value).evalAs tuple degree = value := by
  refine evalAs_of_level (fun s hs => ?_) tuple degree
  obtain ⟨_, -, rfl⟩ := List.mem_map.mp hs
  exact Nat.cast_zero

theorem maxValAs_stretch (b : Box ℚ) (origin target : ℚ) {factor : ℚ}
    (hfactor : 0 ≤ factor) (degree : Degree) :
    (b.stretch origin factor target).maxValAs degree =
      (b.maxValAs degree - origin) * factor + target := by
  cases degree with
  | constant => rfl
  | linear =>
      rw [maxValAs, maxValAs, maxVal_eq, maxVal_eq, stretch,
        topSum_map_mul _ _ hfactor]
      ring

theorem minValAs_stretch (b : Box ℚ) (origin target : ℚ) {factor : ℚ}
    (hfactor : 0 ≤ factor) (degree : Degree) :
    (b.stretch origin factor target).minValAs degree =
      (b.minValAs degree - origin) * factor + target := by
  cases degree with
  | constant => rfl
  | linear =>
      have hswap : (b.slopes.map (· * factor)).map (· * -1) =
          (b.slopes.map (· * -1)).map (· * factor) := by
        simp only [List.map_map, Function.comp_def, mul_right_comm]
      rw [minValAs, minValAs, minVal_eq, minVal_eq, stretch, hswap,
        topSum_map_mul _ _ hfactor]
      ring

end Box

namespace PiecewiseMap

/-! ## Rescaled maps -/

/-- A map has the boxes of another one, in the same order, and at each point
the image of the value there under a function. -/
structure Rescales (g : ℚ → ℚ) (m m' : PiecewiseMap ℚ) : Prop where
  layout : m'.layout = m.layout
  holds : ∀ tuple, m'.Holds tuple ↔ m.Holds tuple
  eval? : ∀ tuple, m'.eval? tuple = (m.eval? tuple).map g

variable {m : PiecewiseMap ℚ}

theorem rescales_mapBoxes (hfull : m.IsFull) {f : Box ℚ → Box ℚ} {g : ℚ → ℚ}
    (hextents : ∀ b, (f b).extents = b.extents)
    (hvalue : ∀ b tuple, (f b).evalAs tuple m.degree = g (b.evalAs tuple m.degree)) :
    Rescales g m (m.mapBoxes f) := by
  have hboxes : (m.mapBoxes f).boxes.toList = m.boxes.toList.map f :=
    Array.toList_map
  have hlayout : (m.mapBoxes f).layout = m.layout := by
    rw [layout, layout, hboxes, List.map_map]
    exact List.map_congr_left fun b _ => hextents b
  have hcontains : ∀ tuple : List ℕ,
      (fun b : Box ℚ => b.contains tuple) ∘ f = fun b => b.contains tuple := by
    intro tuple
    funext b
    rw [Function.comp_apply, Box.contains_eq_hold, hextents, Box.contains_eq_hold]
  have hfull' : (m.mapBoxes f).IsFull := by
    rw [isFull_iff_spans] at hfull ⊢
    refine ((keeps_mapBoxes m fun b => ?_).spans _).mpr hfull
    rw [Box.dimensions, hextents, Box.dimensions]
  have heval : ∀ tuple, (m.mapBoxes f).eval? tuple = (m.eval? tuple).map g := by
    intro tuple
    rw [eval?_eq hfull, eval?_eq hfull', hboxes, List.find?_map, hcontains,
      Option.map_map, Option.map_map]
    refine congrArg (Option.map · _) (funext fun b => ?_)
    exact hvalue b tuple
  refine ⟨hlayout, fun tuple => ?_, heval⟩
  rw [← eval?_isSome hfull, ← eval?_isSome hfull', heval, Option.isSome_map]

/-- A monotone change of the least value of each box changes the least value of
the map. -/
theorem minWeight?_mapBoxes {f : Box ℚ → Box ℚ} {g : ℚ → ℚ} (hg : Monotone g)
    (hvalue : ∀ b, (f b).minValAs m.degree = g (b.minValAs m.degree)) :
    (m.mapBoxes f).minWeight? = m.minWeight?.map g := by
  rw [minWeight?, minWeight?, ← Scalar.smallest?_map hg, List.map_map, mapBoxes,
    withBoxes, Array.toList_map, List.map_map]
  exact congrArg _ (List.map_congr_left fun b _ => hvalue b)

theorem maxWeight?_mapBoxes {f : Box ℚ → Box ℚ} {g : ℚ → ℚ} (hg : Monotone g)
    (hvalue : ∀ b, (f b).maxValAs m.degree = g (b.maxValAs m.degree)) :
    (m.mapBoxes f).maxWeight? = m.maxWeight?.map g := by
  rw [maxWeight?, maxWeight?, ← Scalar.largest?_map hg, List.map_map, mapBoxes,
    withBoxes, Array.toList_map, List.map_map]
  exact congrArg _ (List.map_congr_left fun b _ => hvalue b)

/-- Weighting multiplies every value by the weight. -/
theorem rescales_applyWeight (hfull : m.IsFull) (w : ℚ) :
    Rescales (w * ·) m (m.applyWeight w) := by
  refine rescales_mapBoxes hfull (fun _ => rfl) fun b tuple => ?_
  rw [b.evalAs_scale, mul_comm]

/-! ## Normalised maps -/

/-- Whether values from `least` to `greatest` are too far apart to count as all
the same. -/
theorem isFlatRange_eq_false_iff {least greatest : ℚ} :
    isFlatRange least greatest = false ↔
      flatTolerance * (|greatest| ⊔ 1) < greatest - least := by
  rw [isFlatRange, decide_eq_false_iff_not, not_le, Scalar.max_eq, Scalar.abs_eq,
    Nat.cast_one]

/-- Values that do not count as all the same are apart. -/
theorem lt_of_isFlatRange_eq_false {least greatest : ℚ}
    (h : isFlatRange least greatest = false) : least < greatest := by
  have htolerance : (0 : ℚ) ≤ flatTolerance :=
    div_nonneg (Nat.cast_nonneg 1) (Nat.cast_nonneg _)
  rw [isFlatRange_eq_false_iff] at h
  have hwidth : 0 ≤ flatTolerance * (|greatest| ⊔ 1) :=
    mul_nonneg htolerance (zero_le_one.trans (le_max_right _ _))
  exact sub_pos.mp (hwidth.trans_lt h)

/-- The affine function that sends the range from `least` to `greatest` onto
the one from `lo` to `hi`. -/
def onto (least greatest lo hi x : ℚ) : ℚ :=
  (x - least) * (hi - lo) / (greatest - least) + lo

theorem onto_eq (least greatest lo hi x : ℚ) :
    onto least greatest lo hi x = (x - least) * ((hi - lo) / (greatest - least)) + lo := by
  rw [onto, mul_div_assoc]

variable {least greatest lo hi : ℚ}

theorem monotone_onto (h : least < greatest) (hrange : lo ≤ hi) :
    Monotone (onto least greatest lo hi) := by
  have hfactor : 0 ≤ (hi - lo) / (greatest - least) :=
    div_nonneg (sub_nonneg.mpr hrange) (sub_pos.mpr h).le
  intro x y hxy
  rw [onto_eq, onto_eq]
  gcongr

theorem strictMono_onto (h : least < greatest) (hrange : lo < hi) :
    StrictMono (onto least greatest lo hi) := by
  have hfactor : 0 < (hi - lo) / (greatest - least) :=
    div_pos (sub_pos.mpr hrange) (sub_pos.mpr h)
  intro x y hxy
  rw [onto_eq, onto_eq]
  gcongr

theorem onto_least (least greatest lo hi : ℚ) : onto least greatest lo hi least = lo := by
  rw [onto, sub_self, zero_mul, zero_div, zero_add]

theorem onto_greatest (h : least < greatest) :
    onto least greatest lo hi greatest = hi := by
  rw [onto, mul_div_cancel_left₀ _ (sub_ne_zero.mpr h.ne'), sub_add_cancel]

theorem exists_weights (hne : m.isEmpty = false) :
    ∃ least greatest, m.minWeight? = some least ∧ m.maxWeight? = some greatest := by
  rw [minWeight?, maxWeight?]
  cases hboxes : m.boxes.toList with
  | nil =>
      rw [isEmpty, ← Array.isEmpty_toList, hboxes] at hne
      cases hne
  | cons b bs => exact ⟨_, _, rfl, rfl⟩

theorem normalize_of_isFlatRange (hleast : m.minWeight? = some least)
    (hgreatest : m.maxWeight? = some greatest)
    (hflat : isFlatRange least greatest = true) (lo hi : ℚ) :
    m.normalize lo hi = m.mapBoxes (·.level hi) := by
  simp only [normalize, hleast, hgreatest, if_pos hflat]

theorem normalize_of_not_isFlatRange (hleast : m.minWeight? = some least)
    (hgreatest : m.maxWeight? = some greatest)
    (hflat : isFlatRange least greatest = false) (lo hi : ℚ) :
    m.normalize lo hi =
      m.mapBoxes (·.stretch least ((hi - lo) / (greatest - least)) lo) := by
  simp only [normalize, hleast, hgreatest, hflat, Bool.false_eq_true, if_false]

/-- Normalising onto a range that is not inverted makes its ends the extremes
of the map. -/
theorem weights_normalize (hleast : m.minWeight? = some least)
    (hgreatest : m.maxWeight? = some greatest)
    (hflat : isFlatRange least greatest = false) (hrange : lo ≤ hi) :
    (m.normalize lo hi).minWeight? = some lo ∧
      (m.normalize lo hi).maxWeight? = some hi := by
  have hspread := lt_of_isFlatRange_eq_false hflat
  have hfactor : 0 ≤ (hi - lo) / (greatest - least) :=
    div_nonneg (sub_nonneg.mpr hrange) (sub_pos.mpr hspread).le
  have hmono := monotone_onto hspread hrange
  rw [normalize_of_not_isFlatRange hleast hgreatest hflat]
  constructor
  · rw [minWeight?_mapBoxes hmono, hleast, Option.map_some, onto_least]
    intro b
    rw [b.minValAs_stretch _ _ hfactor, onto_eq]
  · rw [maxWeight?_mapBoxes hmono, hgreatest, Option.map_some, onto_greatest hspread]
    intro b
    rw [b.maxValAs_stretch _ _ hfactor, onto_eq]

/-- Weighting and normalising act on the values of a map point by point and
leave its boxes where they are.  A weight multiplies every value.  Normalising
sends a map whose values are far enough apart through the affine function that
takes the least value to the low end of the range and the greatest one to the
high end: these ends are then the extremes of the map, if the range is not
inverted, and the order of any two values is kept, if it is not a single value.
Any other map gets the high end everywhere. -/
theorem rescaled_pointwise (hfull : m.IsFull) (hne : m.isEmpty = false) :
    (∀ w, Rescales (w * ·) m (m.applyWeight w)) ∧
    ∃ least greatest, m.minWeight? = some least ∧ m.maxWeight? = some greatest ∧
      ∀ lo hi,
        (flatTolerance * (|greatest| ⊔ 1) < greatest - least →
          Rescales (fun x => (x - least) * (hi - lo) / (greatest - least) + lo)
            m (m.normalize lo hi) ∧
          (lo ≤ hi → (m.normalize lo hi).minWeight? = some lo ∧
            (m.normalize lo hi).maxWeight? = some hi) ∧
          (lo < hi → ∀ p q x y x' y', m.eval? p = some x → m.eval? q = some y →
            (m.normalize lo hi).eval? p = some x' →
            (m.normalize lo hi).eval? q = some y' → (x < y ↔ x' < y'))) ∧
        (greatest - least ≤ flatTolerance * (|greatest| ⊔ 1) →
          Rescales (fun _ => hi) m (m.normalize lo hi)) := by
  obtain ⟨least, greatest, hleast, hgreatest⟩ := exists_weights hne
  refine ⟨rescales_applyWeight hfull, least, greatest, hleast, hgreatest,
    fun lo hi => ⟨fun hspread => ?_, fun hnear => ?_⟩⟩
  · rw [← isFlatRange_eq_false_iff] at hspread
    have hvalues : Rescales (onto least greatest lo hi) m (m.normalize lo hi) := by
      rw [normalize_of_not_isFlatRange hleast hgreatest hspread]
      refine rescales_mapBoxes hfull (fun _ => rfl) fun b tuple => ?_
      rw [b.evalAs_stretch, onto_eq]
    refine ⟨hvalues, weights_normalize hleast hgreatest hspread, ?_⟩
    intro hrange p q x y x' y' hx hy hx' hy'
    rw [hvalues.eval?, hx, Option.map_some, Option.some.injEq] at hx'
    rw [hvalues.eval?, hy, Option.map_some, Option.some.injEq] at hy'
    rw [← hx', ← hy']
    have hmono := strictMono_onto (lt_of_isFlatRange_eq_false hspread) hrange
    exact hmono.lt_iff_lt.symm
  · have hflat : isFlatRange least greatest = true := by
      rw [← Bool.not_eq_false, isFlatRange_eq_false_iff, not_lt]
      exact hnear
    rw [normalize_of_isFlatRange hleast hgreatest hflat]
    exact rescales_mapBoxes hfull (fun _ => rfl) fun b tuple => b.evalAs_level hi tuple _

/-- Values from -1 to 3 on one box over both indices of the switch. -/
def onSwitchSloped : PiecewiseMap ℚ :=
  ofBoxes Domain.switch .linear
    [{ Box.onSwitch Interval.switch (-1) with slopes := [4] }]

/-- Normalised onto the range from 5 to 7, the values -1 and 3 become 5 and 7. -/
theorem rescaled_pointwise_switch :
    let m := onSwitchSloped.normalize 5 7
    m.minWeight? = some 5 ∧ m.maxWeight? = some 7 ∧
      m.eval? [0] = some 5 ∧ m.eval? [1] = some 7 := by
  intro m
  have hfull : onSwitchSloped.IsFull := by
    intro b hb
    rw [onSwitchSloped, ofBoxes, List.mem_toArray, List.mem_singleton] at hb
    subst hb
    rfl
  obtain ⟨-, least, greatest, hleast, hgreatest, hranges⟩ :=
    rescaled_pointwise hfull rfl
  have hleast' : onSwitchSloped.minWeight? = some (-1) := by decide +kernel
  have hgreatest' : onSwitchSloped.maxWeight? = some 3 := by decide +kernel
  obtain rfl := Option.some.inj (hleast.symm.trans hleast')
  obtain rfl := Option.some.inj (hgreatest.symm.trans hgreatest')
  obtain ⟨hvalues, hweights, -⟩ := (hranges 5 7).1 (by decide +kernel)
  obtain ⟨hmin, hmax⟩ := hweights (by norm_num)
  have hlow : onSwitchSloped.eval? [0] = some (-1) := by decide +kernel
  have hhigh : onSwitchSloped.eval? [1] = some 3 := by decide +kernel
  refine ⟨hmin, hmax, ?_, ?_⟩
  · rw [hvalues.eval?, hlow]
    norm_num
  · rw [hvalues.eval?, hhigh]
    norm_num

end PiecewiseMap

end IntervalProgramming
