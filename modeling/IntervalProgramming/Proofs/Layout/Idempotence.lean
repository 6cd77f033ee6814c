import IntervalProgramming.Proofs.Layout.Retiling

/-!
# Carving twice

What is left of boxes outside a region no longer overlaps it, and a box within
a region leaves nothing.  So a map from which regions are carved out is a fixed
point of carving them out: laying out a region anew, or setting plateaus aside,
changes nothing the second time.
-/

namespace IntervalProgramming

variable {α : Type} [Scalar α]

namespace Box

variable {boxes others : List (Box α)} {region : Box α}

/-! ## Boxes clear of a region, and boxes within it -/

theorem subtractFrom_of_clear (h : ∀ b ∈ boxes, b.intersects region = false) :
    subtractFrom boxes region = boxes := by
  induction boxes with
  | nil => rfl
  | cons b boxes ih =>
      obtain ⟨hb, hboxes⟩ := List.forall_mem_cons.mp h
      rw [subtractFrom, List.flatMap_cons, subtract_of_clear hb, ← subtractFrom,
        ih hboxes, List.singleton_append]

theorem subtractFrom_eq_nil (h : ∀ b ∈ boxes, b.isWithin region = true) :
    subtractFrom boxes region = [] := by
  rw [subtractFrom, List.flatMap_eq_nil_iff]
  intro b hb
  exact subtract_eq_nil_of_isWithin (h b hb)

theorem intersects_eq_false_of_isWithin_left {b c part : Box α}
    (hwithin : part.isWithin b = true) (hclear : b.intersects c = false) :
    part.intersects c = false := by
  rw [intersects_comm] at hclear ⊢
  exact intersects_eq_false_of_isWithin hwithin hclear

/-! ## Subtracting several boxes again -/

theorem foldl_subtractFrom_append (boxes boxes' others : List (Box α)) :
    others.foldl subtractFrom (boxes ++ boxes') =
      others.foldl subtractFrom boxes ++ others.foldl subtractFrom boxes' := by
  induction others generalizing boxes boxes' with
  | nil => rfl
  | cons c others ih =>
      rw [List.foldl_cons, List.foldl_cons, List.foldl_cons, ← ih, subtractFrom,
        List.flatMap_append, ← subtractFrom, ← subtractFrom]

theorem foldl_subtractFrom_of_clear
    (h : ∀ c ∈ others, ∀ b ∈ boxes, b.intersects c = false) :
    others.foldl subtractFrom boxes = boxes := by
  induction others with
  | nil => rfl
  | cons c others ih =>
      obtain ⟨hc, hothers⟩ := List.forall_mem_cons.mp h
      rw [List.foldl_cons, subtractFrom_of_clear hc, ih hothers]

/-- What is left of boxes overlaps none of the boxes that were subtracted. -/
theorem intersects_eq_false_of_mem_foldl_subtractFrom {part : Box α}
    (hpart : part ∈ others.foldl subtractFrom boxes) :
    ∀ c ∈ others, part.intersects c = false := by
  induction others generalizing boxes with
  | nil => nofun
  | cons c others ih =>
      rw [List.foldl_cons] at hpart
      refine List.forall_mem_cons.mpr ⟨?_, ih hpart⟩
      obtain ⟨b, hb, hwithin⟩ := exists_isWithin_of_mem_foldl_subtractFrom hpart
      exact intersects_eq_false_of_isWithin_left hwithin
        (intersects_eq_false_of_mem_subtractFrom hb)

/-- Boxes subtracted from themselves leave nothing. -/
theorem foldl_subtractFrom_self (boxes : List (Box α)) :
    boxes.foldl subtractFrom boxes = [] := by
  rw [List.eq_nil_iff_forall_not_mem]
  intro part hpart
  obtain ⟨b, hb, hwithin⟩ := exists_isWithin_of_mem_foldl_subtractFrom hpart
  have hmeet := intersects_of_isWithin hwithin
  rw [intersects_eq_false_of_mem_foldl_subtractFrom hpart b hb] at hmeet
  cases hmeet

end Box

namespace PiecewiseMap

variable {m m' : PiecewiseMap α} {region unit : Box α} {plateaus : List (Box α)}
  {first : ℕ}

/-! ## Fixed points of carving -/

/-- Boxes clear of a region, followed by the tiles of the region, are what
laying out the region anew makes of them. -/
theorem retile?_eq_self {rest tiles : List (Box α)}
    (hfits : m.Accommodates region unit)
    (hclear : ∀ b ∈ rest, b.intersects region = false)
    (htiles : region.tiles? unit = some tiles) :
    (m.withBoxes (rest ++ tiles).toArray).retile? region unit =
      some (m.withBoxes (rest ++ tiles).toArray) := by
  obtain ⟨m', h⟩ := exists_retile?_iff_accommodates.mpr
    (show (m.withBoxes (rest ++ tiles).toArray).Accommodates region unit from hfits)
  obtain ⟨whole, tiles', -, -, htiles', hm'⟩ := retile?_eq_some h
  obtain rfl : tiles = tiles' := Option.some.inj (htiles.symm.trans htiles')
  have hwithin : ∀ tile ∈ tiles, tile.isWithin region = true :=
    fun tile htile => Box.isWithin_of_mem_tiles? htiles htile
  have hmeet : ∀ tile ∈ tiles, tile.intersects region = true :=
    fun tile htile => Box.intersects_of_isWithin (hwithin tile htile)
  have hkept : (rest ++ tiles).filter (fun b => !b.intersects region) = rest := by
    rw [List.filter_append, List.filter_eq_self.mpr, List.filter_eq_nil_iff.mpr,
      List.append_nil]
    · intro tile htile
      simp [hmeet tile htile]
    · intro b hb
      simp [hclear b hb]
  have hcrossing : (rest ++ tiles).filter (·.intersects region) = tiles := by
    rw [List.filter_append, List.filter_eq_nil_iff.mpr, List.filter_eq_self.mpr hmeet,
      List.nil_append]
    intro b hb
    simp [hclear b hb]
  have hboxes : (m.withBoxes (rest ++ tiles).toArray).boxes.toList = rest ++ tiles := rfl
  rw [hboxes, hkept, hcrossing, Box.subtractFrom_eq_nil hwithin, List.append_nil] at hm'
  rw [h, hm']
  rfl

theorem insertPlateaus?_of_admitsAll (h : m.admitsAll plateaus = true) :
    m.insertPlateaus? plateaus = some
      (m.withBoxes ((Box.disjointParts plateaus).foldl Box.subtractFrom m.boxes.toList ++
        Box.disjointParts plateaus).toArray,
      ((Box.disjointParts plateaus).foldl Box.subtractFrom m.boxes.toList).length) :=
  if_pos h

/-- Boxes clear of the parts of plateaus, followed by these parts, are what
setting the plateaus aside makes of them. -/
theorem insertPlateaus?_eq_self {rest : List (Box α)}
    (hadmits : m.admitsAll plateaus = true)
    (hclear : ∀ part ∈ Box.disjointParts plateaus, ∀ b ∈ rest,
      b.intersects part = false) :
    (m.withBoxes (rest ++ Box.disjointParts plateaus).toArray).insertPlateaus? plateaus =
      some (m.withBoxes (rest ++ Box.disjointParts plateaus).toArray, rest.length) := by
  have hrest : (Box.disjointParts plateaus).foldl Box.subtractFrom
      (rest ++ Box.disjointParts plateaus) = rest := by
    rw [Box.foldl_subtractFrom_append, Box.foldl_subtractFrom_of_clear hclear,
      Box.foldl_subtractFrom_self, List.append_nil]
  rw [insertPlateaus?_of_admitsAll
    (m := m.withBoxes (rest ++ Box.disjointParts plateaus).toArray) hadmits]
  simp only [withBoxes, hrest]

theorem retile?_retile? (h : m.retile? region unit = some m') :
    m'.retile? region unit = some m' := by
  have hfits := exists_retile?_iff_accommodates.mp ⟨m', h⟩
  obtain ⟨whole, tiles, -, -, htiles, rfl⟩ := retile?_eq_some h
  apply retile?_eq_self hfits _ htiles
  intro b hb
  rcases List.mem_append.mp hb with hb | hb
  · simpa using (List.mem_filter.mp hb).2
  · exact Box.intersects_eq_false_of_mem_subtractFrom hb

theorem insertPlateaus?_insertPlateaus?
    (h : m.insertPlateaus? plateaus = some (m', first)) :
    m'.insertPlateaus? plateaus = some (m', first) := by
  have hadmits : m.admitsAll plateaus = true := by
    by_contra hnot
    rw [insertPlateaus?, if_neg hnot] at h
    cases h
  obtain ⟨whole, rest, -, -, hrest, rfl, rfl⟩ := insertPlateaus?_eq_some h
  apply insertPlateaus?_eq_self hadmits
  intro part hpart b hb
  rw [hrest] at hb
  exact Box.intersects_eq_false_of_mem_foldl_subtractFrom hb part hpart

/-- Carving is idempotent: a map that comes out of laying out a region anew, or
of setting plateaus aside, comes out unchanged when the same is done again. -/
theorem carving_idempotent (m : PiecewiseMap α) :
    (∀ region unit m', m.retile? region unit = some m' →
      m'.retile? region unit = some m') ∧
    ∀ plateaus m' first, m.insertPlateaus? plateaus = some (m', first) →
      m'.insertPlateaus? plateaus = some (m', first) :=
  ⟨fun _ _ _ => retile?_retile?, fun _ _ _ => insertPlateaus?_insertPlateaus?⟩

/-- One index of the switch laid out anew, and set aside as a plateau: the map
that comes out stays as it is. -/
theorem carving_idempotent_switch :
    let m := ofBoxes Domain.switch .constant [Box.onSwitch Interval.switch 5]
    let region := Box.onSwitch (Interval.point 1) 7
    (∃ m', m.retile? region region = some m' ∧ m'.size = 2 ∧
      m'.retile? region region = some m') ∧
    ∃ m' first, m.insertPlateaus? [region, region] = some (m', first) ∧
      m'.size = 2 ∧ m'.insertPlateaus? [region, region] = some (m', first) := by
  intro m region
  obtain ⟨hretile, hplateaus⟩ := carving_idempotent m
  have hretiled : (m.retile? region region).isSome = true := rfl
  have hraised : (m.insertPlateaus? [region, region]).isSome = true := rfl
  obtain ⟨m₁, h₁⟩ := Option.isSome_iff_exists.mp hretiled
  obtain ⟨⟨m₂, first⟩, h₂⟩ := Option.isSome_iff_exists.mp hraised
  have hsize₁ : (m.retile? region region).map (·.size) = some 2 := rfl
  have hsize₂ : (m.insertPlateaus? [region, region]).map (·.1.size) = some 2 := rfl
  rw [h₁] at hsize₁
  rw [h₂] at hsize₂
  exact ⟨⟨m₁, h₁, Option.some.inj hsize₁, hretile _ _ _ h₁⟩,
    m₂, first, h₂, Option.some.inj hsize₂, hplateaus _ _ _ h₂⟩

end PiecewiseMap

end IntervalProgramming
