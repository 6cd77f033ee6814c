import IntervalProgramming.Proofs.Layout.Tiling

/-!
# Regions carved out of a map

Laying out a region anew and setting plateaus aside both turn a partition of
the domain into a partition of the domain.  A box clear of everything that is
carved out stays as it is, a plateau clear of the earlier ones is appended
whole, and what is left of the other boxes is clear of all plateaus.
-/

namespace IntervalProgramming

variable {α : Type} [Scalar α]

namespace Box

variable {boxes others : List (Box α)} {dims : List ℕ}

/-! ## Subtracting several boxes -/

theorem exists_isWithin_of_mem_foldl_subtractFrom {part : Box α}
    (hpart : part ∈ others.foldl subtractFrom boxes) :
    ∃ b ∈ boxes, part.isWithin b = true := by
  induction others generalizing boxes with
  | nil => exact ⟨part, hpart, isWithin_self part⟩
  | cons c others ih =>
      obtain ⟨b, hb, hpartb⟩ := ih hpart
      obtain ⟨b', hb', hbb'⟩ := exists_isWithin_of_mem_subtractFrom hb
      exact ⟨b', hb', isWithin_trans hpartb hbb'⟩

theorem holders_foldl_subtractFrom
    (hboxes : ∀ b ∈ boxes, b.dimensions = dims)
    (hothers : ∀ c ∈ others, c.dimensions = dims) (tuple : List ℕ) :
    holders (others.foldl subtractFrom boxes) tuple =
      (!others.any (·.contains tuple)).toNat * holders boxes tuple := by
  induction others generalizing boxes with
  | nil => simp
  | cons c others ih =>
      obtain ⟨hc, hothers⟩ := List.forall_mem_cons.mp hothers
      have hleft : ∀ b ∈ subtractFrom boxes c, b.dimensions = dims := by
        intro b hb
        obtain ⟨b', hb', hwithin⟩ := exists_isWithin_of_mem_subtractFrom hb
        rw [dimensions_eq_of_isWithin hwithin, hboxes b' hb']
      have hsame : ∀ b ∈ boxes, b.dimensions = c.dimensions := by
        intro b hb
        rw [hboxes b hb, hc]
      rw [List.foldl_cons, ih hleft hothers, holders_subtractFrom hsame,
        List.any_cons]
      cases c.contains tuple <;> simp

/-- A box clear of all boxes that are subtracted stays whole. -/
theorem mem_foldl_subtractFrom {b : Box α} (hb : b ∈ boxes)
    (hclear : ∀ c ∈ others, b.intersects c = false) :
    b ∈ others.foldl subtractFrom boxes := by
  induction others generalizing boxes with
  | nil => exact hb
  | cons c others ih =>
      obtain ⟨hc, hothers⟩ := List.forall_mem_cons.mp hclear
      apply ih _ hothers
      rw [subtractFrom, List.mem_flatMap]
      exact ⟨b, hb, by rw [subtract_of_clear hc, List.mem_singleton]⟩

/-- Setting the boxes clear of a region apart does not change what subtracting
the region leaves. -/
theorem holders_filter_clear (region : Box α) (boxes : List (Box α))
    (tuple : List ℕ) :
    holders (boxes.filter fun b => !b.intersects region) tuple +
        holders (subtractFrom (boxes.filter (·.intersects region)) region) tuple =
      holders (subtractFrom boxes region) tuple := by
  induction boxes with
  | nil => rfl
  | cons b boxes ih =>
      simp only [subtractFrom] at ih ⊢
      by_cases hmeet : b.intersects region = true
      · simp only [List.filter_cons, hmeet, Bool.not_true, Bool.false_eq_true,
          if_false, if_true, List.flatMap_cons, holders_append]
        omega
      · rw [Bool.not_eq_true] at hmeet
        simp only [List.filter_cons, hmeet, Bool.not_false, Bool.false_eq_true,
          if_false, if_true, List.flatMap_cons, holders_append, subtract_of_clear hmeet,
          holders_cons, holders_nil]
        omega

/-! ## Boxes made disjoint -/

/-- Append the parts of a box outside all parts so far. -/
def addDisjoint (parts : List (Box α)) (b : Box α) : List (Box α) :=
  parts ++ b.subtractAll parts

theorem disjointParts_eq (boxes : List (Box α)) :
    disjointParts boxes = boxes.foldl addDisjoint [] :=
  rfl

theorem isWithin_of_mem_subtractAll {b part : Box α}
    (hpart : part ∈ b.subtractAll others) : part.isWithin b = true := by
  obtain ⟨b', hb', hwithin⟩ := exists_isWithin_of_mem_foldl_subtractFrom hpart
  rwa [List.mem_singleton.mp hb'] at hwithin

/-- The parts so far stay in front. -/
theorem prefix_foldl_addDisjoint (parts boxes : List (Box α)) :
    parts <+: boxes.foldl addDisjoint parts := by
  induction boxes generalizing parts with
  | nil => exact List.prefix_rfl
  | cons b boxes ih => exact (List.prefix_append _ _).trans (ih (addDisjoint parts b))

theorem mem_foldl_addDisjoint {parts : List (Box α)} {part : Box α}
    (hpart : part ∈ parts) : part ∈ boxes.foldl addDisjoint parts :=
  (prefix_foldl_addDisjoint parts boxes).subset hpart

theorem exists_isWithin_of_mem_foldl_addDisjoint {parts : List (Box α)}
    {part : Box α} (hpart : part ∈ boxes.foldl addDisjoint parts) :
    part ∈ parts ∨ ∃ b ∈ boxes, part.isWithin b = true := by
  induction boxes generalizing parts with
  | nil => exact Or.inl hpart
  | cons b boxes ih =>
      rcases ih hpart with hpart | ⟨b', hb', hwithin⟩
      · rcases List.mem_append.mp hpart with hpart | hpart
        · exact Or.inl hpart
        · exact Or.inr ⟨b, List.mem_cons_self, isWithin_of_mem_subtractAll hpart⟩
      · exact Or.inr ⟨b', List.mem_cons_of_mem b hb', hwithin⟩

/-- Each of the parts made disjoint lies in one of the boxes. -/
theorem exists_isWithin_of_mem_disjointParts {part : Box α}
    (hpart : part ∈ disjointParts boxes) :
    ∃ b ∈ boxes, part.isWithin b = true := by
  rcases exists_isWithin_of_mem_foldl_addDisjoint hpart with hnil | hwithin
  · cases hnil
  · exact hwithin

theorem dimensions_disjointParts (hboxes : ∀ b ∈ boxes, b.dimensions = dims) :
    ∀ part ∈ disjointParts boxes, part.dimensions = dims := by
  intro part hpart
  obtain ⟨b, hb, hwithin⟩ := exists_isWithin_of_mem_disjointParts hpart
  rw [dimensions_eq_of_isWithin hwithin, hboxes b hb]

theorem any_contains_eq (boxes : List (Box α)) (tuple : List ℕ) :
    boxes.any (·.contains tuple) = decide (0 < holders boxes tuple) := by
  rw [Bool.eq_iff_iff, List.any_eq_true, decide_eq_true_eq, holders_pos_iff]

theorem holders_foldl_addDisjoint {parts : List (Box α)}
    (hparts : ∀ b ∈ parts, b.dimensions = dims)
    (hboxes : ∀ b ∈ boxes, b.dimensions = dims) (tuple : List ℕ) :
    holders (boxes.foldl addDisjoint parts) tuple =
      if parts.any (·.contains tuple) then holders parts tuple
      else (boxes.any (·.contains tuple)).toNat := by
  induction boxes generalizing parts with
  | nil =>
      rw [List.foldl_nil, any_contains_eq]
      split
      · rfl
      · rename_i hnone
        rw [decide_eq_true_eq, Nat.not_lt, Nat.le_zero] at hnone
        simpa using hnone
  | cons b boxes ih =>
      obtain ⟨hb, hboxes⟩ := List.forall_mem_cons.mp hboxes
      have hnew : ∀ part ∈ addDisjoint parts b, part.dimensions = dims := by
        intro part hpart
        rcases List.mem_append.mp hpart with hpart | hpart
        · exact hparts part hpart
        · rw [dimensions_eq_of_isWithin (isWithin_of_mem_subtractAll hpart), hb]
      have hadded : holders (b.subtractAll parts) tuple =
          (!parts.any (·.contains tuple)).toNat * (b.contains tuple).toNat := by
        have hsingle : ∀ c ∈ [b], c.dimensions = dims := by
          simpa using hb
        rw [subtractAll, holders_foldl_subtractFrom hsingle hparts, holders_cons,
          holders_nil, Nat.add_zero]
      rw [List.foldl_cons, ih hnew hboxes, any_contains_eq, addDisjoint,
        holders_append, hadded, any_contains_eq parts, List.any_cons]
      by_cases hheld : 0 < holders parts tuple
      · simp [hheld]
      · have hzero : holders parts tuple = 0 := Nat.eq_zero_of_not_pos hheld
        cases b.contains tuple <;> simp [hzero]

/-- The parts made disjoint hold each tuple of the boxes once. -/
theorem holders_disjointParts (hboxes : ∀ b ∈ boxes, b.dimensions = dims)
    (tuple : List ℕ) :
    holders (disjointParts boxes) tuple = (boxes.any (·.contains tuple)).toNat :=
  holders_foldl_addDisjoint (by simp) hboxes tuple

/-- Where none of the boxes that are set aside holds a tuple, as many boxes do
as before; elsewhere no box is left. -/
theorem holders_remaining (hboxes : ∀ b ∈ boxes, b.dimensions = dims)
    (hothers : ∀ c ∈ others, c.dimensions = dims) (tuple : List ℕ) :
    holders ((disjointParts others).foldl subtractFrom boxes) tuple =
      (!others.any (·.contains tuple)).toNat * holders boxes tuple := by
  rw [holders_foldl_subtractFrom hboxes (dimensions_disjointParts hothers),
    any_contains_eq, holders_disjointParts hothers]
  cases others.any (·.contains tuple) <;> rfl

/-- What is left of boxes holds no tuple of a box that is set aside. -/
theorem contains_of_mem_remaining (hboxes : ∀ b ∈ boxes, b.dimensions = dims)
    (hothers : ∀ c ∈ others, c.dimensions = dims) {b c : Box α}
    (hb : b ∈ (disjointParts others).foldl subtractFrom boxes) (hc : c ∈ others)
    {tuple : List ℕ} (hbt : b.contains tuple = true) : c.contains tuple = false := by
  have hpos := holders_pos_iff.mpr ⟨b, hb, hbt⟩
  rw [holders_remaining hboxes hothers] at hpos
  rw [Bool.eq_false_iff]
  intro hct
  have hany : others.any (·.contains tuple) = true := List.any_eq_true.mpr ⟨c, hc, hct⟩
  simp [hany] at hpos

/-- A box clear of the earlier ones is one of the parts, whole. -/
theorem mem_disjointParts_of_clear {before after : List (Box α)} {b : Box α}
    (hclear : ∀ c ∈ before, b.intersects c = false) :
    b ∈ disjointParts (before ++ b :: after) := by
  rw [disjointParts_eq, List.foldl_append, List.foldl_cons]
  apply mem_foldl_addDisjoint
  apply List.mem_append_right
  apply mem_foldl_subtractFrom List.mem_cons_self
  intro part hpart
  obtain ⟨c, hc, hwithin⟩ := exists_isWithin_of_mem_disjointParts hpart
  exact intersects_eq_false_of_isWithin hwithin (hclear c hc)

end Box

namespace PiecewiseMap

variable {m m' : PiecewiseMap α}

/-! ## Laying out a region anew -/

/-- What laying out a region anew makes of the boxes of a map. -/
theorem retile?_eq_some {region unit : Box α} (h : m.retile? region unit = some m') :
    ∃ whole tiles, Box.universe? m.domain = some whole ∧
      region.isWithin whole = true ∧ region.tiles? unit = some tiles ∧
      m' = m.withBoxes
        (m.boxes.toList.filter (fun b => !b.intersects region) ++
          Box.subtractFrom (m.boxes.toList.filter (·.intersects region)) region ++
          tiles).toArray := by
  simp only [retile?, universe?, Option.bind_eq_bind, Option.bind_eq_some_iff] at h
  obtain ⟨whole, hwhole, h⟩ := h
  split at h
  · rename_i hfits
    simp only [List.partition_eq_filter_filter, Option.bind_eq_some_iff,
      Option.pure_def, Option.some.injEq] at h
    obtain ⟨tiles, htiles, rfl⟩ := h
    simp only [Bool.and_eq_true] at hfits
    exact ⟨whole, tiles, hwhole, hfits.1.1, htiles, rfl⟩
  · cases h

theorem domain_retile? {region unit : Box α} (h : m.retile? region unit = some m') :
    m'.domain = m.domain := by
  obtain ⟨_, _, -, -, -, rfl⟩ := retile?_eq_some h
  rfl

/-- A region can be laid out anew exactly if it lies in the domain with all its
dimensions and the unit has as many extents of which none is wider, whatever
the boxes of the map are. -/
theorem exists_retile?_iff (hd : m.domain.isEmpty = false) (region unit : Box α) :
    (∃ m', m.retile? region unit = some m') ↔ m.domain.HasBox region ∧
      List.Forall₂ (fun u e : Extent => u.span ≤ e.span)
        unit.extents region.extents := by
  obtain ⟨whole, hwhole⟩ := Box.exists_universe? hd
  have hfits : (unit.dims == region.dims && (unit.spans.zip region.spans).all
      (fun s => decide (s.1 ≤ s.2))) = true ↔
      List.Forall₂ (fun u e : Extent => u.span ≤ e.span)
        unit.extents region.extents := by
    simp only [Box.dims, Box.spans, List.zip_map, List.all_map, Bool.and_eq_true,
      beq_iff_eq, List.all_eq_true, Prod.forall, Function.comp_apply, Prod.map_apply,
      decide_eq_true_eq, List.forall₂_iff_zip]
  rw [← Box.isWithin_universe_iff hwhole, ← hfits]
  constructor
  · rintro ⟨m', h⟩
    simp only [retile?, universe?, hwhole, Option.bind_eq_bind, Option.bind_some] at h
    split at h
    · rename_i hall
      simpa only [Bool.and_eq_true, and_assoc] using hall
    · cases h
  · rintro ⟨hwithin, hunit⟩
    have hregion := Box.dimensions_of_isWithin_universe hwhole hwithin
    have hlen : region.extents.length = unit.extents.length :=
      ((hfits.mp hunit).length_eq).symm
    obtain ⟨tiles, htiles⟩ :=
      Box.exists_tiles? (Box.increasing_of_dimensions hregion) hlen
    rw [Bool.and_eq_true] at hunit
    simp only [retile?, universe?, hwhole, Option.bind_eq_bind, Option.bind_some,
      hwithin, hunit, Bool.and_self, if_true, htiles]
    exact ⟨_, rfl⟩

theorem dimensions_retile? {region unit : Box α}
    (hfull : ∀ b ∈ m.boxes.toList, b.dimensions = List.range m.domain.size)
    (h : m.retile? region unit = some m') :
    ∀ b ∈ m'.boxes.toList, b.dimensions = List.range m.domain.size := by
  obtain ⟨whole, tiles, hwhole, hwithin, htiles, rfl⟩ := retile?_eq_some h
  intro b hb
  simp only [withBoxes, List.mem_append, List.mem_filter] at hb
  rcases hb with (⟨hb, -⟩ | hb) | hb
  · exact hfull b hb
  · obtain ⟨c, hc, hbc⟩ := Box.exists_isWithin_of_mem_subtractFrom hb
    rw [Box.dimensions_eq_of_isWithin hbc]
    exact hfull c (List.mem_filter.mp hc).1
  · rw [Box.dimensions_tiles? htiles hb]
    exact Box.dimensions_of_isWithin_universe hwhole hwithin

/-- Laying out a region anew turns a partition into a partition. -/
theorem partitionedBy_retile? {region unit : Box α}
    (hpart : m.domain.PartitionedBy m.boxes.toList)
    (h : m.retile? region unit = some m') :
    m'.domain = m.domain ∧ m.domain.PartitionedBy m'.boxes.toList := by
  have hfull' := dimensions_retile? hpart.full h
  obtain ⟨whole, tiles, hwhole, hwithin, htiles, rfl⟩ := retile?_eq_some h
  obtain ⟨hfull, hholders⟩ := (Box.partitionedBy_iff hwhole).mp hpart
  refine ⟨rfl, (Box.partitionedBy_iff hwhole).mpr ⟨hfull', fun tuple => ?_⟩⟩
  have hdim : ∀ b ∈ m.boxes.toList, b.dimensions = region.dimensions := by
    intro b hb
    rw [hfull b hb, Box.dimensions_of_isWithin_universe hwhole hwithin]
  simp only [withBoxes, Box.holders_append, Box.holders_tiles? htiles,
    Box.holders_filter_clear, Box.holders_subtractFrom hdim, hholders]
  by_cases hin : region.contains tuple = true
  · have hwholet := Box.contains_of_isWithin hwithin hin
    simp [hin, hwholet]
  · rw [Bool.not_eq_true] at hin
    simp [hin]

/-- A box clear of the region that is laid out anew stays whole. -/
theorem mem_retile?_of_clear {region unit b : Box α}
    (h : m.retile? region unit = some m') (hb : b ∈ m.boxes)
    (hclear : b.intersects region = false) : b ∈ m'.boxes := by
  obtain ⟨whole, tiles, -, -, -, rfl⟩ := retile?_eq_some h
  have hmem : b ∈ m.boxes.toList.filter fun b => !b.intersects region := by
    simp [hb, hclear]
  simp only [withBoxes, List.mem_toArray, List.mem_append]
  exact Or.inl (Or.inl hmem)

/-- A region of a single tuple that is laid out anew becomes a box. -/
theorem exists_mem_retile?_point {p unit : Box α} (hpoint : p.isPoint = true)
    (h : m.retile? p unit = some m') :
    ∃ b ∈ m'.boxes, b.extents = p.extents := by
  obtain ⟨whole, tiles, -, -, htiles, rfl⟩ := retile?_eq_some h
  have hone := Box.holders_tiles? htiles p.lows
  rw [Box.contains_lows, Bool.toNat_true] at hone
  obtain ⟨b, hb, -⟩ := Box.holders_pos_iff.mp (hone ▸ Nat.one_pos)
  refine ⟨b, ?_, Box.extents_eq_of_isWithin_point hpoint
    (Box.isWithin_of_mem_tiles? htiles hb)⟩
  simp only [withBoxes, List.mem_toArray, List.mem_append]
  exact Or.inr hb

/-! ## Setting plateaus aside -/

/-- What setting plateaus aside makes of the boxes of a map. -/
theorem insertPlateaus?_eq_some {plateaus : List (Box α)} {first : ℕ}
    (h : m.insertPlateaus? plateaus = some (m', first)) :
    ∃ whole rest, Box.universe? m.domain = some whole ∧
      (∀ p ∈ plateaus, p.isWithin whole = true) ∧
      rest = (Box.disjointParts plateaus).foldl Box.subtractFrom m.boxes.toList ∧
      first = rest.length ∧
      m' = m.withBoxes (rest ++ Box.disjointParts plateaus).toArray := by
  unfold insertPlateaus? at h
  split at h
  · rename_i hadmits
    simp only [Option.some.injEq, Prod.mk.injEq] at h
    obtain ⟨rfl, rfl⟩ := h
    unfold admitsAll universe? at hadmits
    split at hadmits
    · cases hadmits
    · rename_i whole hwhole
      rw [List.all_eq_true] at hadmits
      exact ⟨whole, _, hwhole, hadmits, rfl, rfl, rfl⟩
  · cases h

/-- Plateaus that lie in the domain with all its dimensions can be set aside in
every map. -/
theorem exists_insertPlateaus? {plateaus : List (Box α)}
    (hd : m.domain.isEmpty = false) (h : ∀ p ∈ plateaus, m.domain.HasBox p) :
    ∃ result, m.insertPlateaus? plateaus = some result := by
  obtain ⟨whole, hwhole⟩ := Box.exists_universe? hd
  have hadmits : m.admitsAll plateaus = true := by
    simp only [admitsAll, universe?, hwhole, List.all_eq_true]
    intro p hp
    exact (Box.isWithin_universe_iff hwhole).mpr (h p hp)
  exact ⟨_, if_pos hadmits⟩

theorem dimensions_insertPlateaus? {plateaus : List (Box α)} {first : ℕ}
    (hfull : ∀ b ∈ m.boxes.toList, b.dimensions = List.range m.domain.size)
    (h : m.insertPlateaus? plateaus = some (m', first)) :
    ∀ b ∈ m'.boxes.toList, b.dimensions = List.range m.domain.size := by
  obtain ⟨whole, rest, hwhole, hwithin, hrest, -, rfl⟩ := insertPlateaus?_eq_some h
  intro b hb
  rcases List.mem_append.mp hb with hb | hb
  · rw [hrest] at hb
    obtain ⟨c, hc, hbc⟩ := Box.exists_isWithin_of_mem_foldl_subtractFrom hb
    exact (Box.dimensions_eq_of_isWithin hbc).trans (hfull c hc)
  · obtain ⟨p, hp, hbp⟩ := Box.exists_isWithin_of_mem_disjointParts hb
    exact Box.dimensions_of_isWithin_universe hwhole
      (Box.isWithin_trans hbp (hwithin p hp))

/-- Setting plateaus aside turns a partition into a partition. -/
theorem partitionedBy_insertPlateaus? {plateaus : List (Box α)} {first : ℕ}
    (hpart : m.domain.PartitionedBy m.boxes.toList)
    (h : m.insertPlateaus? plateaus = some (m', first)) :
    m'.domain = m.domain ∧ m.domain.PartitionedBy m'.boxes.toList := by
  have hfull' := dimensions_insertPlateaus? hpart.full h
  obtain ⟨whole, rest, hwhole, hwithin, hrest, -, rfl⟩ := insertPlateaus?_eq_some h
  obtain ⟨hfull, hholders⟩ := (Box.partitionedBy_iff hwhole).mp hpart
  have hplateaus : ∀ p ∈ plateaus, p.dimensions = List.range m.domain.size :=
    fun p hp => Box.dimensions_of_isWithin_universe hwhole (hwithin p hp)
  refine ⟨rfl, (Box.partitionedBy_iff hwhole).mpr ⟨hfull', fun tuple => ?_⟩⟩
  have hraised := Box.holders_disjointParts hplateaus tuple
  have hleft := Box.holders_remaining hfull hplateaus tuple
  rw [hholders, ← hrest] at hleft
  simp only [withBoxes, Box.holders_append, hraised, hleft]
  by_cases hany : plateaus.any (·.contains tuple) = true
  · obtain ⟨p, hp, hpt⟩ := List.any_eq_true.mp hany
    simp [hany, Box.contains_of_isWithin (hwithin p hp) hpt]
  · rw [Bool.not_eq_true] at hany
    simp [hany]

/-- Apart from the plateaus themselves, boxes are clear of all plateaus. -/
theorem isWithin_or_clear_insertPlateaus? {plateaus : List (Box α)} {first : ℕ}
    (hfull : ∀ b ∈ m.boxes, b.dimensions = List.range m.domain.size)
    (h : m.insertPlateaus? plateaus = some (m', first)) {b : Box α}
    (hb : b ∈ m'.boxes) :
    (∀ p ∈ plateaus, ∀ tuple, b.contains tuple = true → p.contains tuple = false) ∨
      ∃ p ∈ plateaus, b.isWithin p = true := by
  obtain ⟨whole, rest, hwhole, hwithin, hrest, -, rfl⟩ := insertPlateaus?_eq_some h
  have hplateaus : ∀ p ∈ plateaus, p.dimensions = List.range m.domain.size :=
    fun p hp => Box.dimensions_of_isWithin_universe hwhole (hwithin p hp)
  simp only [withBoxes, List.mem_toArray, List.mem_append] at hb
  rcases hb with hb | hb
  · left
    intro p hp tuple htuple
    have hboxes : ∀ c ∈ m.boxes.toList, c.dimensions = List.range m.domain.size := by
      intro c hc
      exact hfull c (Array.mem_toList_iff.mp hc)
    rw [hrest] at hb
    exact Box.contains_of_mem_remaining hboxes hplateaus hb hp htuple
  · exact Or.inr (Box.exists_isWithin_of_mem_disjointParts hb)

/-- A box clear of all plateaus stays whole. -/
theorem mem_insertPlateaus?_of_clear {plateaus : List (Box α)} {first : ℕ}
    (h : m.insertPlateaus? plateaus = some (m', first)) {b : Box α}
    (hb : b ∈ m.boxes) (hclear : ∀ p ∈ plateaus, b.intersects p = false) :
    b ∈ m'.boxes := by
  obtain ⟨whole, rest, -, -, hrest, -, rfl⟩ := insertPlateaus?_eq_some h
  have hmem : b ∈ rest := by
    rw [hrest]
    apply Box.mem_foldl_subtractFrom (Array.mem_toList_iff.mpr hb)
    intro part hpart
    obtain ⟨p, hp, hwithin⟩ := Box.exists_isWithin_of_mem_disjointParts hpart
    exact Box.intersects_eq_false_of_isWithin hwithin (hclear p hp)
  simp only [withBoxes, List.mem_toArray, List.mem_append]
  exact Or.inl hmem

/-- A plateau clear of the earlier ones is one of the pinned boxes. -/
theorem exists_getElem?_insertPlateaus? {before after : List (Box α)}
    {p : Box α} {first : ℕ}
    (h : m.insertPlateaus? (before ++ p :: after) = some (m', first))
    (hclear : ∀ q ∈ before, p.intersects q = false) :
    ∃ ix, first ≤ ix ∧ m'.boxes[ix]? = some p := by
  obtain ⟨whole, rest, -, -, -, hfirst, rfl⟩ := insertPlateaus?_eq_some h
  have hmem : p ∈ Box.disjointParts (before ++ p :: after) :=
    Box.mem_disjointParts_of_clear hclear
  obtain ⟨k, hk⟩ := List.mem_iff_getElem?.mp hmem
  refine ⟨first + k, Nat.le_add_right _ _, ?_⟩
  simp only [withBoxes, List.getElem?_toArray]
  rw [hfirst, List.getElem?_append_right (Nat.le_add_right _ _),
    Nat.add_sub_cancel_left]
  exact hk

end PiecewiseMap

end IntervalProgramming
