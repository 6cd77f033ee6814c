import IntervalProgramming.Box.Range
import IntervalProgramming.Proofs.Domain.Rounding

/-!
# Boxes from ranges of values

Over the rational numbers the interval of a range of values holds exactly the
indices whose values lie in the range, if there is one, and is the index closest
to the middle of the range if it lies between two neighbouring values.  Boxes over
one or two named variables are made of such intervals, in the order of the domain.
All of this is the same in index words, since every rounding is.
-/

namespace IntervalProgramming

/-! ## The interval of a range -/

namespace ValueRange

variable {r : ValueRange ℚ} {low high : ℚ} {j : ℕ}

theorem interval?_self (r : ValueRange ℚ) (x : ℚ) :
    r.interval? x x = some (Interval.point (r.discretize x .nearest)) := by
  rw [interval?, if_pos le_rfl, if_pos (beq_self_eq_true x)]

/-- A range that holds an index becomes the interval between its rounded ends. -/
theorem interval?_of_le (hlt : low < high)
    (h : r.discretize low .up ≤ r.discretize high .down) :
    r.interval? low high =
      some { lo := r.discretize low .up, hi := r.discretize high .down, le := h } := by
  have hne : ¬ (low == high) = true := fun heq => hlt.ne (beq_iff_eq.mp heq)
  rw [interval?, if_pos hlt.le, if_neg hne]
  exact dif_pos h

/-- A range whose rounded ends are inverted becomes the index of its middle. -/
theorem interval?_of_lt (hlt : low < high)
    (h : r.discretize high .down < r.discretize low .up) :
    r.interval? low high =
      some (Interval.point (r.discretize ((low + high) / 2) .nearest)) := by
  have hne : ¬ (low == high) = true := fun heq => hlt.ne (beq_iff_eq.mp heq)
  rw [interval?, if_pos hlt.le, if_neg hne]
  exact dif_neg (not_le.mpr h)

theorem intervalInWords?_eq (r : ValueRange ℚ) (low high : ℚ) :
    r.intervalInWords? low high = (r.interval? low high).getM := by
  unfold intervalInWords? interval?
  simp only [discretizeInWords?_eq, lift_some, pure_bind]
  split
  · split
    · rfl
    · split <;> rfl
  · rfl

/-- Where some value lies in a range, the rounded ends enclose the indices of
all of them. -/
theorem mem_indicesWhere_iff (hspread : r.low < r.high)
    (hmem : (r.indicesWhere fun y => low ≤ y ∧ y ≤ high).Nonempty) :
    j ∈ r.indicesWhere (fun y => low ≤ y ∧ y ≤ high) ↔
      r.discretize low .up ≤ j ∧ j ≤ r.discretize high .down := by
  obtain ⟨i, hi, hlow, hhigh⟩ := hmem
  have hmono := (strictMono_value hspread).monotone
  have hup := isLeast_discretize_up hspread
    (hlow.trans (value_le_high hspread (lt_count_iff.mp hi)))
  have hdown := isGreatest_discretize_down hspread ((low_le_value hspread i).trans hhigh)
  constructor
  · rintro ⟨hj, hlow, hhigh⟩
    exact ⟨hup.2 ⟨hj, hlow⟩, hdown.2 ⟨hj, hhigh⟩⟩
  · rintro ⟨hlo, hhi⟩
    exact ⟨hhi.trans_lt hdown.1.1, hup.1.2.trans (hmono hlo), (hmono hhi).trans hdown.1.2⟩

/-- The rounded ends of a range between two neighbouring values are inverted. -/
theorem discretize_down_lt_up (hspread : r.low < r.high) (hj : j < r.lastIndex)
    (hlow : r.value j < low) (hhigh : high < r.value (j + 1)) :
    r.discretize high .down < r.discretize low .up := by
  have hdown : r.discretize high .down ≤ j := (discretize_le_iff hspread).mpr (Or.inr hhigh)
  have hup : ¬ r.discretize low .up ≤ j := by
    rw [discretize_le_iff hspread, not_or]
    exact ⟨not_le.mpr hj, not_le.mpr hlow⟩
  omega

end ValueRange

/-! ## The interval of a range of a variable -/

namespace Domain

variable {α : Type} [Scalar α]

/-- Whether an interval of indices of the variable at position `k` covers the
values from `low` to `high`: it holds the indices of the values in the range, if
there are any, and is the least index closest to the middle of a range between two
neighbouring values. -/
structure CoversRange (d : Domain ℚ) (k : ℕ) (low high : ℚ) (i : Interval) : Prop where
  holds : (d.indicesWhere k fun y => low ≤ y ∧ y ≤ high).Nonempty →
    ∀ j, i.contains j = true ↔ j ∈ d.indicesWhere k fun y => low ≤ y ∧ y ≤ high
  between : ∀ {j y z}, d.valueAt? k j = some y → d.valueAt? k (j + 1) = some z →
    y < low → high < z →
    ∃ n, IsLeast (d.closestIndices k ((low + high) / 2)) n ∧ i = Interval.point n

section

variable {d : Domain ℚ} {k : ℕ} {v : Variable ℚ} {low high : ℚ}

theorem coversRange_point (hv : d.var? k = some v) (hspread : v.low < v.high) (x : ℚ) :
    d.CoversRange k x x (Interval.point (v.discretize x .nearest)) where
  holds := by
    rw [indicesWhere_eq hv]
    rintro ⟨i, hi, hle, hge⟩ j
    obtain rfl := le_antisymm hle hge
    rw [ValueRange.discretize_value hspread (ValueRange.lt_count_iff.mp hi),
      Interval.contains_eq_true_iff]
    constructor
    · rintro ⟨hij, hji⟩
      obtain rfl : i = j := le_antisymm hij hji
      exact ⟨hi, hle, hge⟩
    · rintro ⟨-, hle, hge⟩
      obtain rfl := (ValueRange.strictMono_value hspread).injective (le_antisymm hle hge)
      exact ⟨le_rfl, le_rfl⟩
  between := by
    intro j y z _ _ _ _
    rw [closestIndices_eq hv, add_self_div_two]
    exact ⟨_, ValueRange.isLeast_discretize_nearest hspread x, rfl⟩

theorem exists_interval? (hv : d.var? k = some v) (hspread : v.low < v.high)
    (hle : low ≤ high) :
    ∃ i, v.interval? low high = some i ∧ d.CoversRange k low high i := by
  rcases hle.eq_or_lt with rfl | hlt
  · exact ⟨_, v.interval?_self low, coversRange_point hv hspread low⟩
  rcases le_or_gt (v.discretize low .up) (v.discretize high .down) with hends | hends
  · refine ⟨_, ValueRange.interval?_of_le hlt hends, ?_, ?_⟩
    · rw [indicesWhere_eq hv]
      intro hmem j
      rw [Interval.contains_eq_true_iff, ValueRange.mem_indicesWhere_iff hspread hmem]
    · intro j y z hy hz hlow hhigh
      obtain ⟨-, rfl⟩ := (valueAt?_eq_some_iff hv).mp hy
      obtain ⟨hj, rfl⟩ := (valueAt?_eq_some_iff hv).mp hz
      have hinverted := ValueRange.discretize_down_lt_up hspread
        (ValueRange.lt_count_iff.mp hj) hlow hhigh
      omega
  · -- Inverted ends enclose no index, so no value lies in the range.
    refine ⟨_, ValueRange.interval?_of_lt hlt hends, ?_, ?_⟩
    · rw [indicesWhere_eq hv]
      intro hmem
      obtain ⟨j, hj⟩ := id hmem
      rw [ValueRange.mem_indicesWhere_iff hspread hmem] at hj
      omega
    · intro j y z _ _ _ _
      rw [closestIndices_eq hv]
      exact ⟨_, ValueRange.isLeast_discretize_nearest hspread _, rfl⟩

end

/-! ## Named variables -/

section

variable {d : Domain α} {k : ℕ} {name : String} {low high : α}

theorem indexOf?_name {v : Variable α} (hv : d.var? k = some v) :
    d.indexOf? v.name = some k := by
  obtain ⟨hk, rfl⟩ := List.getElem?_eq_some_iff.mp hv
  rw [indexOf?, List.findIdx?_eq_some_iff_getElem]
  refine ⟨hk, beq_self_eq_true _, fun i hi hname => ?_⟩
  have hnames := List.pairwise_iff_getElem.mp (List.pairwise_map.mp d.unique)
  exact hnames i k (hi.trans hk) hk hi (beq_iff_eq.mp hname)

theorem exists_of_indexOf?_eq_some (h : d.indexOf? name = some k) :
    ∃ v, d.var? k = some v ∧ v.name = name := by
  rw [indexOf?, List.findIdx?_eq_some_iff_getElem] at h
  obtain ⟨hk, hname, -⟩ := h
  exact ⟨_, List.getElem?_eq_getElem hk, beq_iff_eq.mp hname⟩

theorem extent?_name {v : Variable α} (hv : d.var? k = some v) (low high : α) :
    d.extent? v.name low high =
      (v.interval? low high).map fun i => { i with dim := k } := by
  rw [extent?, indexOf?_name hv]
  simp only [Option.bind_eq_bind, Option.bind_some, hv]
  cases v.interval? low high <;> rfl

theorem indexOf?_of_extent? {e : Extent} (h : d.extent? name low high = some e) :
    d.indexOf? name = some e.dim := by
  simp only [extent?, Option.bind_eq_bind, Option.bind_eq_some_iff, Option.pure_def,
    Option.some.injEq] at h
  obtain ⟨k, hk, -, -, -, -, rfl⟩ := h
  exact hk

/-- Extents along variables of different names have different dimensions. -/
theorem dim_ne_of_name_ne {e f : Extent} {name₁ name₂ : String} {range₁ range₂ : α × α}
    (hne : name₁ ≠ name₂) (he : d.extent? name₁ range₁.1 range₁.2 = some e)
    (hf : d.extent? name₂ range₂.1 range₂.2 = some f) : e.dim ≠ f.dim := by
  intro hdim
  obtain ⟨v, hv, rfl⟩ := exists_of_indexOf?_eq_some (indexOf?_of_extent? he)
  obtain ⟨w, hw, rfl⟩ := exists_of_indexOf?_eq_some (indexOf?_of_extent? hf)
  rw [hdim, hw] at hv
  exact hne (congrArg (·.name) (Option.some.inj hv)).symm

end

theorem extentInWords?_eq (d : Domain ℚ) (name : String) (low high : ℚ) :
    d.extentInWords? name low high = (d.extent? name low high).getM := by
  simp only [extentInWords?, extent?, ValueRange.intervalInWords?_eq, ← getM_bind]
  rfl

end Domain

/-! ## Boxes -/

namespace Box

variable {α : Type} [Scalar α]

theorem ofExtents?_pair {e f : Extent} (h : e.dim < f.dim) :
    (ofExtents? [e, f] : Option (Box α)) = some (flat [e, f]) := by
  refine if_pos ?_
  rw [increasing, decide_eq_true h]
  rfl

/-- The box over two variables does not depend on the order in which they are
named. -/
theorem ofRanges?_comm (d : Domain α) (name₁ name₂ : String) (range₁ range₂ : α × α) :
    ofRanges? d name₁ name₂ range₁ range₂ = ofRanges? d name₂ name₁ range₂ range₁ := by
  rcases eq_or_ne name₁ name₂ with rfl | hne
  · rw [ofRanges?, ofRanges?, if_pos (beq_self_eq_true name₁), if_pos (beq_self_eq_true name₁)]
  rw [ofRanges?, ofRanges?, if_neg (by simpa using hne), if_neg (by simpa using hne.symm)]
  cases he : d.extent? name₁ range₁.1 range₁.2 with
  | none => cases d.extent? name₂ range₂.1 range₂.2 <;> rfl
  | some e =>
      cases hf : d.extent? name₂ range₂.1 range₂.2 with
      | none => rfl
      | some f =>
          simp only [Option.bind_eq_bind, Option.bind_some]
          rcases Nat.lt_or_gt_of_ne (Domain.dim_ne_of_name_ne hne he hf) with hlt | hgt
          · rw [if_pos hlt, if_neg hlt.not_gt]
          · rw [if_neg hgt.not_gt, if_pos hgt]

/-- A box over one variable covers the requested range of its values, and so does
a box over two variables along each of them.  Its extents are those of the
intervals, in the order of the domain, and it does not depend on the order in which
the variables are named. -/
theorem ranges_cover (d : Domain ℚ) :
    (∀ {k v low high}, d.var? k = some v → v.low < v.high → low ≤ high →
      ∃ e, ofRange? d v.name low high = some (flat [e]) ∧
        e.dim = k ∧ d.CoversRange k low high e.toInterval) ∧
    (∀ {k₁ k₂ v₁ v₂} {range₁ range₂ : ℚ × ℚ}, k₁ ≠ k₂ →
      d.var? k₁ = some v₁ → v₁.low < v₁.high → range₁.1 ≤ range₁.2 →
      d.var? k₂ = some v₂ → v₂.low < v₂.high → range₂.1 ≤ range₂.2 →
      ∃ e f, ofRanges? d v₁.name v₂.name range₁ range₂ =
          some (flat (if k₁ < k₂ then [e, f] else [f, e])) ∧
        e.dim = k₁ ∧ d.CoversRange k₁ range₁.1 range₁.2 e.toInterval ∧
        f.dim = k₂ ∧ d.CoversRange k₂ range₂.1 range₂.2 f.toInterval) ∧
    ∀ name₁ name₂ range₁ range₂,
      ofRanges? d name₁ name₂ range₁ range₂ = ofRanges? d name₂ name₁ range₂ range₁ := by
  refine ⟨?_, ?_, ofRanges?_comm d⟩
  · intro k v low high hv hspread hle
    obtain ⟨i, hi, hcovers⟩ := Domain.exists_interval? hv hspread hle
    refine ⟨{ i with dim := k }, ?_, rfl, hcovers⟩
    rw [ofRange?, Domain.extent?_name hv, hi]
    rfl
  · intro k₁ k₂ v₁ v₂ range₁ range₂ hne hv₁ hspread₁ hle₁ hv₂ hspread₂ hle₂
    obtain ⟨i₁, hi₁, hcovers₁⟩ := Domain.exists_interval? hv₁ hspread₁ hle₁
    obtain ⟨i₂, hi₂, hcovers₂⟩ := Domain.exists_interval? hv₂ hspread₂ hle₂
    refine ⟨{ i₁ with dim := k₁ }, { i₂ with dim := k₂ }, ?_, rfl, hcovers₁, rfl, hcovers₂⟩
    have hnames : v₁.name ≠ v₂.name := by
      intro hname
      have hk₁ := Domain.indexOf?_name hv₁
      rw [hname, Domain.indexOf?_name hv₂] at hk₁
      exact hne (Option.some.inj hk₁).symm
    rw [ofRanges?, if_neg (by simpa using hnames), Domain.extent?_name hv₁,
      Domain.extent?_name hv₂, hi₁, hi₂]
    simp only [Option.map_some, Option.bind_eq_bind, Option.bind_some]
    rcases Nat.lt_or_gt_of_ne hne with hlt | hgt
    · rw [if_pos hlt]
      exact ofExtents?_pair hlt
    · rw [if_neg hgt.not_gt]
      exact ofExtents?_pair hgt

/-- The values from 10/3 to 39/10 of the first variable of the gauge are those of
the indices 1 and 2, and the range from 0 to 1/4 of the second one lies between its
values -1 and 1/2, with the middle closest to the upper one. -/
theorem ranges_cover_gauge :
    ∃ e f, ofRanges? Domain.gauge "y" "x" (0, 1 / 4) (10 / 3, 39 / 10) =
        some (flat [e, f]) ∧
      e.contains 1 = true ∧ e.contains 2 = true ∧ e.contains 3 = false ∧
      f.toInterval = Interval.point 1 := by
  obtain ⟨-, hpair, hswap⟩ := ranges_cover Domain.gauge
  obtain ⟨e, f, hbox, -, he, -, hf⟩ := @hpair 0 1 _ _ (10 / 3, 39 / 10) (0, 1 / 4) (by decide)
    rfl (by decide) (by norm_num) rfl (by decide) (by norm_num)
  have hone : Domain.gauge.valueAt? 0 1 = some (10 / 3) := by decide +kernel
  have htwo : Domain.gauge.valueAt? 0 2 = some (11 / 3) := by decide +kernel
  have hthree : Domain.gauge.valueAt? 0 3 = some 4 := by decide +kernel
  have hin := he.holds ⟨1, _, hone, by norm_num⟩
  refine ⟨e, f, (hswap _ _ _ _).trans hbox, (hin 1).mpr ⟨_, hone, by norm_num⟩,
    (hin 2).mpr ⟨_, htwo, by norm_num⟩, ?_, ?_⟩
  · rw [← Bool.not_eq_true, hin]
    rintro ⟨y, hy, -, hle⟩
    obtain rfl := Option.some.inj (hthree.symm.trans hy)
    norm_num at hle
  · obtain ⟨n, hn, hpoint⟩ := hf.between (j := 0) (y := -1) (z := 1 / 2) (by decide +kernel)
      (by decide +kernel) (by norm_num) (by norm_num)
    rw [Domain.closestIndices_eq (v := Domain.gauge.vars[1]) rfl] at hn
    obtain rfl := hn.unique (ValueRange.isLeast_discretize_nearest (by decide) _)
    rw [hpoint]
    decide +kernel

/-! ## Boxes in index words -/

theorem ofRangeInWords?_eq (d : Domain ℚ) (name : String) (low high : ℚ) :
    ofRangeInWords? d name low high = (ofRange? d name low high).getM := by
  rw [ofRangeInWords?, Domain.extentInWords?_eq, getM_bind, ofRange?]

theorem ofRangesInWords?_eq (d : Domain ℚ) (name₁ name₂ : String) (range₁ range₂ : ℚ × ℚ) :
    ofRangesInWords? d name₁ name₂ range₁ range₂ =
      (ofRanges? d name₁ name₂ range₁ range₂).getM := by
  unfold ofRangesInWords? ofRanges?
  split
  · rfl
  · simp only [Domain.extentInWords?_eq, ← getM_bind]

theorem nearestPointInWords?_eq (d : Domain ℚ) (values : List (String × ℚ)) :
    nearestPointInWords? d values = (nearestPoint? d values).getM := by
  rw [nearestPointInWords?, nearestPoint?, ← getM_bind, ← mapM_getM]
  congr 2
  funext ⟨name, x⟩
  simp only [Domain.discretizeInWords?_eq, lift_some, pure_bind, ← getM_bind]
  rfl

end Box

end IntervalProgramming
