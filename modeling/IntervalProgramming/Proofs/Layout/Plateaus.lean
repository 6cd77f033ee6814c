import IntervalProgramming.Proofs.Box.Difference
import IntervalProgramming.Proofs.Layout.Carving
import IntervalProgramming.Proofs.Layout.Partition

/-!
# Precedence of plateaus

Setting plateaus aside leaves boxes of two kinds.  The last ones are disjoint
and cover the plateaus, and where plateaus overlap the box is a part of the
earliest one.  The boxes before them are clear of all plateaus.  They have the
models of the boxes they come from, so outside the plateaus a map keeps its
values.
-/

namespace IntervalProgramming

variable {α : Type} [Scalar α]

namespace Box

variable {boxes : List (Box α)} {tuple : List ℕ}

/-! ## The earliest box that holds a tuple -/

theorem mem_modelsAt {x : List α × α} :
    x ∈ modelsAt boxes tuple ↔
      ∃ b ∈ boxes, b.contains tuple = true ∧ b.model = x := by
  simp only [modelsAt, List.mem_map, List.mem_filter, and_assoc]

theorem modelsAt_eq_nil (h : ∀ b ∈ boxes, b.contains tuple = false) :
    modelsAt boxes tuple = [] := by
  rw [modelsAt, List.map_eq_nil_iff, List.filter_eq_nil_iff]
  simpa using h

theorem contains_of_mem_disjointParts (h : ∀ b ∈ boxes, b.contains tuple = false) :
    ∀ part ∈ disjointParts boxes, part.contains tuple = false := by
  intro part hpart
  obtain ⟨b, hb, hwithin⟩ := exists_isWithin_of_mem_disjointParts hpart
  rw [Bool.eq_false_iff]
  intro hparttuple
  have hbt := contains_of_isWithin hwithin hparttuple
  rw [h b hb] at hbt
  cases hbt

/-- Among the parts made disjoint, a tuple lies in a part of the earliest box
that holds it, under the model of that box. -/
theorem exists_mem_disjointParts {p : Box α}
    (h : boxes.find? (·.contains tuple) = some p) :
    ∃ part ∈ disjointParts boxes, part.contains tuple = true ∧
      part.isWithin p = true ∧ part.model = p.model := by
  obtain ⟨hpt, before, after, rfl, hbefore⟩ := List.find?_eq_some_iff_append.mp h
  have houtside : ∀ c ∈ before, c.contains tuple = false := by
    simpa using hbefore
  have hmodels : modelsAt (p.subtractAll (disjointParts before)) tuple = [p.model] := by
    rw [subtractAll, modelsAt_foldl_subtractFrom (contains_of_mem_disjointParts houtside)]
    simp [modelsAt, hpt]
  have hmem : p.model ∈ modelsAt (p.subtractAll (disjointParts before)) tuple := by
    rw [hmodels]
    exact List.mem_singleton_self _
  obtain ⟨part, hpart, hparttuple, hmodel⟩ := mem_modelsAt.mp hmem
  refine ⟨part, ?_, hparttuple, isWithin_of_mem_subtractAll hpart, hmodel⟩
  rw [disjointParts_eq, List.foldl_append, List.foldl_cons]
  exact mem_foldl_addDisjoint (List.mem_append_right _ hpart)

/-- The first box stays whole and comes first. -/
theorem head?_disjointParts (boxes : List (Box α)) :
    (disjointParts boxes).head? = boxes.head? := by
  cases boxes with
  | nil => rfl
  | cons b boxes =>
      have hprefix : [b] <+: disjointParts (b :: boxes) :=
        prefix_foldl_addDisjoint [b] boxes
      obtain ⟨rest, hrest⟩ := hprefix
      rw [← hrest]
      rfl

/-! ## Values and models -/

theorem head?_modelsAt (boxes : List (Box α)) (tuple : List ℕ) :
    (modelsAt boxes tuple).head? =
      (boxes.find? (·.contains tuple)).map model := by
  rw [modelsAt, List.head?_map, List.head?_filter]

theorem evalAs_congr {b c : Box α} (h : b.model = c.model) (tuple : List ℕ)
    (degree : Degree) : b.evalAs tuple degree = c.evalAs tuple degree := by
  obtain ⟨hslopes, hintercept⟩ := Prod.mk.inj h
  cases degree with
  | constant => exact hintercept
  | linear => simp only [evalAs, eval, hslopes, hintercept]

end Box

namespace PiecewiseMap

variable {m m' : PiecewiseMap α} {plateaus : List (Box α)} {first : ℕ}
  {tuple : List ℕ}

/-- The models of the boxes that hold a tuple decide the value there. -/
theorem eval?_congr (hfull : m.IsFull) (hfull' : m'.IsFull)
    (hdegree : m'.degree = m.degree)
    (h : Box.modelsAt m'.boxes.toList tuple = Box.modelsAt m.boxes.toList tuple) :
    m'.eval? tuple = m.eval? tuple := by
  have hfirst := congrArg List.head? h
  rw [Box.head?_modelsAt, Box.head?_modelsAt] at hfirst
  rw [eval?_eq hfull, eval?_eq hfull', hdegree]
  cases hb : m.boxes.toList.find? (·.contains tuple) with
  | none =>
      rw [hb, Option.map_none, Option.map_eq_none_iff] at hfirst
      rw [hfirst]
  | some b =>
      rw [hb, Option.map_some, Option.map_eq_some_iff] at hfirst
      obtain ⟨c, hc, hmodel⟩ := hfirst
      rw [hc, Option.map_some, Option.map_some, Box.evalAs_congr hmodel]

/-! ## Plateaus set aside -/

/-- A map from which plateaus are carved out, with the parts of the plateaus as
its boxes from position `first` on. -/
structure Raises (m : PiecewiseMap α) (plateaus : List (Box α))
    (m' : PiecewiseMap α) (first : ℕ) : Prop where
  domain : m'.domain = m.domain
  full : m'.IsFull
  first_le : first ≤ m'.size
  /-- The first plateau is kept whole. -/
  head : m'.boxes[first]? = plateaus.head?
  /-- The parts of the plateaus are disjoint. -/
  disjoint : (m'.boxes.toList.drop first).Pairwise fun b c => b.intersects c = false
  /-- Together they hold the tuples of the plateaus. -/
  covers : ∀ tuple, (∃ b ∈ m'.boxes.toList.drop first, b.contains tuple = true) ↔
    ∃ p ∈ plateaus, p.contains tuple = true
  /-- The earliest plateau that holds a tuple has the place. -/
  earliest : ∀ tuple p, plateaus.find? (·.contains tuple) = some p →
    ∃ b ∈ m'.boxes.toList.drop first, b.contains tuple = true ∧
      b.isWithin p = true ∧ b.slopes = p.slopes ∧ b.intercept = p.intercept
  /-- The boxes before the plateaus are clear of them. -/
  clear : ∀ b ∈ m'.boxes.toList.take first, ∀ p ∈ plateaus, b.intersects p = false
  /-- Outside the plateaus as many boxes hold a tuple as before, under the same
  models, and the value there is the same. -/
  outside : ∀ tuple, (∀ p ∈ plateaus, p.contains tuple = false) →
    Box.holders m'.boxes.toList tuple = Box.holders m.boxes.toList tuple ∧
    Box.modelsAt m'.boxes.toList tuple = Box.modelsAt m.boxes.toList tuple ∧
    m'.eval? tuple = m.eval? tuple

theorem insertPlateaus?_eq_none_iff (m : PiecewiseMap α) (plateaus : List (Box α)) :
    m.insertPlateaus? plateaus = none ↔ m.domain.isEmpty = true ∨
      ∃ whole, m.universe? = some whole ∧ ∃ p ∈ plateaus, p.isWithin whole = false := by
  unfold insertPlateaus? admitsAll universe?
  cases hd : m.domain.isEmpty with
  | true => simp [Box.universe?, hd]
  | false =>
      obtain ⟨whole, hwhole⟩ := Box.exists_universe? hd
      simp [hwhole]

theorem isFull_insertPlateaus? (hfull : m.IsFull)
    (h : m.insertPlateaus? plateaus = some (m', first)) : m'.IsFull := by
  have hdim := dimensions_insertPlateaus? (isFull_iff_dimensions.mp hfull) h
  obtain ⟨whole, rest, -, -, -, -, rfl⟩ := insertPlateaus?_eq_some h
  exact isFull_iff_dimensions.mpr hdim

/-- Outside the plateaus the models that hold a tuple stay, in their order. -/
theorem modelsAt_insertPlateaus?
    (h : m.insertPlateaus? plateaus = some (m', first))
    (houtside : ∀ p ∈ plateaus, p.contains tuple = false) :
    Box.modelsAt m'.boxes.toList tuple = Box.modelsAt m.boxes.toList tuple := by
  obtain ⟨whole, rest, -, -, hrest, -, rfl⟩ := insertPlateaus?_eq_some h
  have hparts := Box.contains_of_mem_disjointParts houtside
  simp only [withBoxes, Box.modelsAt_append]
  rw [Box.modelsAt_eq_nil hparts, List.append_nil, hrest,
    Box.modelsAt_foldl_subtractFrom hparts]

theorem raises_insertPlateaus? (hfull : m.IsFull)
    (h : m.insertPlateaus? plateaus = some (m', first)) :
    m.Raises plateaus m' first := by
  have hfull' := isFull_insertPlateaus? hfull h
  have hmodels : ∀ tuple, (∀ p ∈ plateaus, p.contains tuple = false) →
      Box.modelsAt m'.boxes.toList tuple = Box.modelsAt m.boxes.toList tuple :=
    fun _ => modelsAt_insertPlateaus? h
  obtain ⟨whole, rest, hwhole, hwithin, hrest, rfl, rfl⟩ := insertPlateaus?_eq_some h
  have hplateaus : ∀ p ∈ plateaus, p.dimensions = List.range m.domain.size :=
    fun p hp => Box.dimensions_of_isWithin_universe hwhole (hwithin p hp)
  have hholders := Box.holders_disjointParts hplateaus
  constructor
  case domain => rfl
  case full => exact hfull'
  case first_le => simp [size, withBoxes]
  case head =>
    simp only [withBoxes, List.getElem?_toArray]
    rw [List.getElem?_append_right le_rfl, Nat.sub_self, ← List.head?_eq_getElem?,
      Box.head?_disjointParts]
  case disjoint =>
    simp only [withBoxes, List.drop_left]
    apply Box.pairwise_clear
    intro tuple
    rw [hholders]
    exact Bool.toNat_le _
  case covers =>
    intro tuple
    simp only [withBoxes, List.drop_left]
    rw [← Box.holders_pos_iff, hholders, ← List.any_eq_true]
    cases plateaus.any (·.contains tuple) <;> simp
  case earliest =>
    intro tuple p hp
    obtain ⟨part, hpart, hpt, hwithin, hmodel⟩ := Box.exists_mem_disjointParts hp
    simp only [withBoxes, List.drop_left]
    exact ⟨part, hpart, hpt, hwithin, Prod.mk.inj hmodel⟩
  case clear =>
    intro b hb p hp
    simp only [withBoxes, List.take_left, hrest] at hb
    apply Box.intersects_eq_false
    intro tuple hbt
    exact Box.contains_of_mem_remaining (isFull_iff_dimensions.mp hfull)
      hplateaus hb hp hbt
  case outside =>
    intro tuple houtside
    have hsame := hmodels tuple houtside
    refine ⟨?_, hsame, eval?_congr hfull hfull' rfl hsame⟩
    rw [← Box.length_modelsAt, ← Box.length_modelsAt, hsame]

/-- Plateaus are refused only on an empty domain, or if one of them does not lie
in the domain with all its dimensions.  Set aside in a map over full dimensions
they are carved out exactly, the earlier ones having the place, and a partition
stays a partition. -/
theorem plateaus_raised (hfull : m.IsFull) (plateaus : List (Box α)) :
    (m.insertPlateaus? plateaus = none ↔ m.domain.isEmpty = true ∨
      ∃ whole, m.universe? = some whole ∧ ∃ p ∈ plateaus, p.isWithin whole = false) ∧
    ∀ m' first, m.insertPlateaus? plateaus = some (m', first) →
      m.Raises plateaus m' first ∧
      (m.domain.PartitionedBy m.boxes.toList →
        m'.domain.PartitionedBy m'.boxes.toList) := by
  refine ⟨m.insertPlateaus?_eq_none_iff plateaus, fun m' first h => ?_⟩
  refine ⟨raises_insertPlateaus? hfull h, fun hpart => ?_⟩
  obtain ⟨hdomain, hpart'⟩ := partitionedBy_insertPlateaus? hpart h
  rwa [hdomain]

/-- Two plateaus over one index of the switch: the earlier one has it, and the
other index keeps its value. -/
theorem plateaus_raised_switch :
    let m := ofBoxes Domain.switch .constant [Box.onSwitch Interval.switch 5]
    let plateaus := [Box.onSwitch { lo := 1, hi := 1 } 7, Box.onSwitch { lo := 1, hi := 1 } 9]
    m.IsFull ∧ ∃ m' first, m.insertPlateaus? plateaus = some (m', first) ∧
      m'.boxes[first]? = some (Box.onSwitch { lo := 1, hi := 1 } 7) ∧
      m'.eval? [0] = some 5 ∧
      ∃ b ∈ m'.boxes.toList.drop first, b.contains [1] = true ∧ b.intercept = 7 := by
  intro m plateaus
  have hfull : m.IsFull := by
    intro b hb
    obtain rfl : b = Box.onSwitch Interval.switch 5 := by
      simpa [m, ofBoxes] using hb
    rfl
  obtain ⟨hnone, hsome⟩ := plateaus_raised hfull plateaus
  have hadmits : (m.insertPlateaus? plateaus).isSome = true := rfl
  obtain ⟨⟨m', first⟩, h⟩ := Option.isSome_iff_exists.mp hadmits
  obtain ⟨hraises, -⟩ := hsome m' first h
  refine ⟨hfull, m', first, h, hraises.head, ?_, ?_⟩
  · have houtside : ∀ p ∈ plateaus, p.contains [0] = false := by
      simp [plateaus, Box.contains_onSwitch, Interval.contains]
    obtain ⟨-, -, hvalue⟩ := hraises.outside [0] houtside
    rw [hvalue, eval?_eq hfull]
    rfl
  · obtain ⟨b, hb, hheld, -, -, hintercept⟩ := hraises.earliest [1] _ rfl
    exact ⟨b, hb, hheld, hintercept⟩

end PiecewiseMap

end IntervalProgramming
