import IntervalProgramming.Proofs.Solve.Order

/-!
# Combinations of boxes

A combination takes one box of each level, given by its positions, such that
the boxes share a tuple.  Its region is their intersection with the sum of
their models, so that the value of the region at a tuple is the sum of the
values of the boxes there.  This module lists the combinations of some levels
in lexicographic order and connects them with the values of the maps.
-/

namespace IntervalProgramming

namespace PiecewiseMap

/-- A map over a domain as a search needs it: every box spans the domain and
has one slope for each extent. -/
structure IsOver (d : Domain ℚ) (m : PiecewiseMap ℚ) : Prop where
  domain : m.domain = d
  full : m.IsFull
  modelled : m.IsModelled

namespace IsOver

variable {d : Domain ℚ} {m : PiecewiseMap ℚ}

theorem dimensions (h : m.IsOver d) {b : Box ℚ} (hb : b ∈ m.boxes) :
    b.dimensions = List.range d.size := by
  rw [← h.domain]
  exact Box.spansFirst_eq_true_iff.mp (h.full b hb)

end IsOver

end PiecewiseMap

/-- Maps and an order that make a search: there is a map, every map has a box
and is over the same domain, and the order is valid. -/
structure Searchable (d : Domain ℚ) (maps : List (PiecewiseMap ℚ))
    (order : PriorityOrder) : Prop where
  ne_nil : maps ≠ []
  nonempty : ∀ m ∈ maps, m.isEmpty = false
  isOver : ∀ m ∈ maps, m.IsOver d
  valid : order.ValidFor maps.length

namespace PiecewiseMap

/-- The map over the switch with these constant values. -/
def onSwitch (values : List (Interval × ℚ)) : PiecewiseMap ℚ :=
  ofBoxes Domain.switch .constant (values.map fun v => Box.onSwitch v.1 v.2)

theorem isOver_onSwitch (values : List (Interval × ℚ)) :
    (onSwitch values).IsOver Domain.switch := by
  have hboxes : ∀ b ∈ (onSwitch values).boxes, ∃ i x, b = Box.onSwitch i x := by
    intro b hb
    simp only [onSwitch, ofBoxes, List.mem_toArray, List.mem_map] at hb
    obtain ⟨v, -, rfl⟩ := hb
    exact ⟨v.1, v.2, rfl⟩
  refine ⟨rfl, fun b hb => ?_, fun b hb => ?_⟩
  · obtain ⟨i, x, rfl⟩ := hboxes b hb
    rfl
  · obtain ⟨i, x, rfl⟩ := hboxes b hb
    rfl

end PiecewiseMap

/-- The map over the switch that is zero. -/
def PiecewiseMap.zeroOnSwitch : PiecewiseMap ℚ :=
  onSwitch [(Interval.switch, 0)]

/-- Two maps over the switch: one with a value at each index, one that is
zero. -/
def switchPair (x y : ℚ) : List (PiecewiseMap ℚ) :=
  [.onSwitch [(Interval.point 0, x), (Interval.point 1, y)], .zeroOnSwitch]

theorem searchable_switchPair (x y : ℚ) :
    Searchable Domain.switch (switchPair x y) .asGiven := by
  refine ⟨nofun, ?_, ?_, trivial⟩
  · intro m hm
    simp only [switchPair, List.mem_cons, List.not_mem_nil, or_false] at hm
    rcases hm with rfl | rfl <;> rfl
  · intro m hm
    simp only [switchPair, List.mem_cons, List.not_mem_nil, or_false] at hm
    rcases hm with rfl | rfl <;> exact PiecewiseMap.isOver_onSwitch _

theorem isDisjoint_switchPair (x y : ℚ) :
    ∀ m ∈ switchPair x y, m.IsDisjoint := by
  intro m hm
  simp only [switchPair, List.mem_cons, List.not_mem_nil, or_false] at hm
  rcases hm with rfl | rfl
  · exact List.pairwise_pair.mpr rfl
  · exact List.pairwise_singleton _ _

/-- The boxes at the given positions, one of each level, all hold the tuple,
and their values there sum to `x`. -/
inductive Picks (tuple : List ℕ) : List (PiecewiseMap ℚ) → List ℕ → ℚ → Prop
  | nil : Picks tuple [] [] 0
  | cons {m : PiecewiseMap ℚ} {levels : List (PiecewiseMap ℚ)} {ix : ℕ}
      {positions : List ℕ} {b : Box ℚ} {x : ℚ} (hb : m.boxes[ix]? = some b)
      (htuple : b.contains tuple = true) (rest : Picks tuple levels positions x) :
      Picks tuple (m :: levels) (ix :: positions)
        (b.evalAs tuple m.degree + x)

namespace Search

/-- Narrow a region by the boxes at the given positions, one of each level. -/
def narrow? : List (PiecewiseMap ℚ) → Box ℚ → List ℕ → Option (Box ℚ)
  | [], region, [] => some region
  | m :: levels, region, ix :: positions =>
    (m.boxes[ix]?.bind fun b => region.meetAs? b m.degree).bind fun narrowed =>
      narrow? levels narrowed positions
  | _, _, _ => none

/-- The region of the combination at the given positions, one of each level;
`none` if a position has no box or the boxes share no tuple. -/
def region? : List (PiecewiseMap ℚ) → List ℕ → Option (Box ℚ)
  | top :: rest, ix :: positions =>
    (top.boxes[ix]?.map (·.asLinear top.degree)).bind fun region =>
      narrow? rest region positions
  | _, _ => none

/-! ## The values of a combination -/

variable {d : Domain ℚ} {levels : List (PiecewiseMap ℚ)} {region r : Box ℚ}
  {positions tuple : List ℕ} {x : ℚ}

/-- A region to be narrowed further: it spans the domain and has one slope for
each extent. -/
structure IsRegion (d : Domain ℚ) (region : Box ℚ) : Prop where
  dimensions : region.dimensions = List.range d.size
  modelled : region.slopes.length = region.extents.length

theorem isRegion_asLinear {m : PiecewiseMap ℚ} {b : Box ℚ} (hm : m.IsOver d)
    (hb : b ∈ m.boxes) : IsRegion d (b.asLinear m.degree) := by
  constructor
  · rw [Box.dimensions, Box.extents_asLinear]
    exact hm.dimensions hb
  · rw [Box.length_slopes_asLinear, Box.extents_asLinear]
    exact hm.modelled b hb

theorem IsRegion.meetAs? {m : PiecewiseMap ℚ} {b narrowed : Box ℚ}
    (hregion : IsRegion d region) (hm : m.IsOver d) (hb : b ∈ m.boxes)
    (h : region.meetAs? b m.degree = some narrowed) : IsRegion d narrowed := by
  constructor
  · rw [Box.dimensions_meetAs? h, hregion.dimensions]
  · exact Box.length_slopes_meetAs? hregion.modelled (hm.modelled b hb) h

theorem isRegion_narrow? (hlevels : ∀ m ∈ levels, m.IsOver d)
    (hregion : IsRegion d region) (h : narrow? levels region positions = some r) :
    IsRegion d r := by
  induction levels generalizing region positions with
  | nil =>
      cases positions with
      | nil =>
          obtain rfl := Option.some.inj h
          exact hregion
      | cons ix positions => cases h
  | cons m levels ih =>
      cases positions with
      | nil => cases h
      | cons ix positions =>
          simp only [narrow?, Option.bind_eq_some_iff] at h
          obtain ⟨narrowed, ⟨b, hb, hmeet⟩, h⟩ := h
          obtain ⟨hm, hrest⟩ := List.forall_mem_cons.mp hlevels
          exact ih hrest (hregion.meetAs? hm (Array.mem_of_getElem? hb) hmeet) h

/-- Every tuple of a narrowed region is held by the boxes that narrowed it, and
their values were added to the value of the region. -/
theorem picks_of_narrow? (hlevels : ∀ m ∈ levels, m.IsOver d)
    (hregion : IsRegion d region) (h : narrow? levels region positions = some r)
    (htuple : r.contains tuple = true) :
    region.contains tuple = true ∧
      ∃ x, Picks tuple levels positions x ∧
        r.eval tuple = region.eval tuple + x := by
  induction levels generalizing region positions with
  | nil =>
      cases positions with
      | nil =>
          obtain rfl := Option.some.inj h
          exact ⟨htuple, 0, Picks.nil, (add_zero _).symm⟩
      | cons ix positions => cases h
  | cons m levels ih =>
      cases positions with
      | nil => cases h
      | cons ix positions =>
          simp only [narrow?, Option.bind_eq_some_iff] at h
          obtain ⟨narrowed, ⟨b, hb, hmeet⟩, h⟩ := h
          obtain ⟨hm, hrest⟩ := List.forall_mem_cons.mp hlevels
          have hbm := Array.mem_of_getElem? hb
          obtain ⟨hnarrowed, x, hpicks, hvalue⟩ :=
            ih hrest (hregion.meetAs? hm hbm hmeet) h
          obtain ⟨hin, hbt⟩ := (Box.contains_meetAs? hmeet tuple).mp hnarrowed
          refine ⟨hin, _, Picks.cons hb hbt hpicks, ?_⟩
          rw [hvalue, Box.eval_meetAs? hregion.modelled (hm.modelled b hbm) hmeet]
          exact add_assoc _ _ _

theorem exists_narrow?_of_picks (hlevels : ∀ m ∈ levels, m.IsOver d)
    (hregion : IsRegion d region) (hpicks : Picks tuple levels positions x)
    (htuple : region.contains tuple = true) :
    ∃ r, narrow? levels region positions = some r ∧
      r.contains tuple = true ∧ r.eval tuple = region.eval tuple + x := by
  induction hpicks generalizing region with
  | nil => exact ⟨region, rfl, htuple, (add_zero _).symm⟩
  | @cons m levels ix positions b x hb hbt hpicks ih =>
      obtain ⟨hm, hrest⟩ := List.forall_mem_cons.mp hlevels
      have hbm := Array.mem_of_getElem? hb
      have hdim : region.dimensions = b.dimensions := by
        rw [hregion.dimensions, hm.dimensions hbm]
      have hsome : (region.meetAs? b m.degree).isSome = true := by
        rw [Box.meetAs?_isSome, Box.intersects_iff_exists hdim]
        exact ⟨tuple, htuple, hbt⟩
      obtain ⟨narrowed, hmeet⟩ := Option.isSome_iff_exists.mp hsome
      obtain ⟨r, hr, hrt, hvalue⟩ := ih hrest (hregion.meetAs? hm hbm hmeet)
        ((Box.contains_meetAs? hmeet tuple).mpr ⟨htuple, hbt⟩)
      refine ⟨r, ?_, hrt, ?_⟩
      · simp only [narrow?, hb, Option.bind_some, hmeet, hr]
      · rw [hvalue, Box.eval_meetAs? hregion.modelled (hm.modelled b hbm) hmeet]
        exact add_assoc _ _ _

theorem isRegion_region? (hlevels : ∀ m ∈ levels, m.IsOver d)
    (h : region? levels positions = some r) : IsRegion d r := by
  match levels, positions, h with
  | top :: rest, ix :: positions, h =>
    simp only [region?, Option.bind_eq_some_iff, Option.map_eq_some_iff] at h
    obtain ⟨_, ⟨b, hb, rfl⟩, h⟩ := h
    obtain ⟨htop, hrest⟩ := List.forall_mem_cons.mp hlevels
    have hregion := isRegion_asLinear htop (Array.mem_of_getElem? hb)
    exact isRegion_narrow? hrest hregion h

/-- Every tuple of the region of a combination is held by its boxes, and the
value of the region is the sum of their values. -/
theorem picks_of_region? (hlevels : ∀ m ∈ levels, m.IsOver d)
    (h : region? levels positions = some r) (htuple : r.contains tuple = true) :
    Picks tuple levels positions (r.eval tuple) := by
  match levels, positions, h with
  | top :: rest, ix :: positions, h =>
    simp only [region?, Option.bind_eq_some_iff, Option.map_eq_some_iff] at h
    obtain ⟨_, ⟨b, hb, rfl⟩, h⟩ := h
    obtain ⟨htop, hrest⟩ := List.forall_mem_cons.mp hlevels
    have hregion := isRegion_asLinear htop (Array.mem_of_getElem? hb)
    obtain ⟨hbt, x, hpicks, hvalue⟩ := picks_of_narrow? hrest hregion h htuple
    rw [Box.contains_asLinear] at hbt
    rw [hvalue, Box.eval_asLinear]
    exact Picks.cons hb hbt hpicks

theorem exists_region?_of_picks (hlevels : ∀ m ∈ levels, m.IsOver d)
    (hne : levels ≠ []) (hpicks : Picks tuple levels positions x) :
    ∃ r, region? levels positions = some r ∧
      r.contains tuple = true ∧ r.eval tuple = x := by
  cases hpicks with
  | nil => exact absurd rfl hne
  | @cons top rest ix positions b x hb hbt hpicks =>
      obtain ⟨htop, hrest⟩ := List.forall_mem_cons.mp hlevels
      have hregion := isRegion_asLinear htop (Array.mem_of_getElem? hb)
      obtain ⟨r, hr, hrt, hvalue⟩ := exists_narrow?_of_picks hrest hregion hpicks
        (by rwa [Box.contains_asLinear])
      refine ⟨r, ?_, hrt, ?_⟩
      · simp only [region?, hb, Option.map_some, Option.bind_some, hr]
      · rw [hvalue, Box.eval_asLinear]

/-- The greatest value of a combination is taken at a tuple that its boxes
share. -/
theorem picks_maxPoint (hlevels : ∀ m ∈ levels, m.IsOver d)
    (h : region? levels positions = some r) :
    Picks r.maxPoint levels positions r.maxVal := by
  have hmem := Box.contains_maxPoint (isRegion_region? hlevels h).modelled
  rw [← Box.eval_maxPoint r]
  exact picks_of_region? hlevels h hmem

end Search

/-! ## The values of the maps -/

/-- Every map has a box that holds the tuple. -/
def CoveredBy (maps : List (PiecewiseMap ℚ)) (tuple : List ℕ) : Prop :=
  ∀ m ∈ maps, m.Holds tuple

/-- The sum of the values of the maps at a tuple, where all maps have one. -/
def valueSum (maps : List (PiecewiseMap ℚ)) (tuple : List ℕ) : ℚ :=
  (maps.map fun m => (m.eval? tuple).getD 0).sum

section Values

variable {d : Domain ℚ} {levels : List (PiecewiseMap ℚ)} {region : Box ℚ}
  {positions tuple : List ℕ} {x : ℚ}

theorem coveredBy_switchPair (x y : ℚ) : CoveredBy (switchPair x y) [1] := by
  intro m hm
  simp only [switchPair, List.mem_cons, List.not_mem_nil, or_false] at hm
  rcases hm with rfl | rfl
  · exact ⟨_, Array.mem_of_getElem? (i := 1) rfl, rfl⟩
  · exact ⟨_, Array.mem_of_getElem? (i := 0) rfl, rfl⟩

theorem CoveredBy.perm {maps : List (PiecewiseMap ℚ)}
    (h : levels.Perm maps) : CoveredBy levels tuple ↔ CoveredBy maps tuple := by
  simp only [CoveredBy, h.mem_iff]

theorem valueSum_perm {maps : List (PiecewiseMap ℚ)} (h : levels.Perm maps)
    (tuple : List ℕ) : valueSum levels tuple = valueSum maps tuple :=
  (h.map _).sum_eq

theorem Picks.covered (h : Picks tuple levels positions x) :
    CoveredBy levels tuple := by
  induction h with
  | nil => nofun
  | cons hb htuple _ ih =>
      refine List.forall_mem_cons.mpr ⟨?_, ih⟩
      exact ⟨_, Array.mem_of_getElem? hb, htuple⟩

/-- At a tuple that all maps cover, their values are those of some boxes. -/
theorem exists_picks (hlevels : ∀ m ∈ levels, m.IsOver d)
    (hcovered : CoveredBy levels tuple) :
    ∃ positions, Picks tuple levels positions (valueSum levels tuple) := by
  induction levels with
  | nil => exact ⟨[], Picks.nil⟩
  | cons m levels ih =>
      obtain ⟨hm, hrest⟩ := List.forall_mem_cons.mp hlevels
      obtain ⟨hholds, hcovered⟩ := List.forall_mem_cons.mp hcovered
      have hfull := hm.full
      have hsome := (PiecewiseMap.eval?_isSome hfull tuple).mpr hholds
      obtain ⟨y, hy⟩ := Option.isSome_iff_exists.mp hsome
      obtain ⟨b, hb, htuple, rfl⟩ := PiecewiseMap.exists_of_eval?_eq_some hfull hy
      obtain ⟨ix, hix⟩ := Array.mem_iff_getElem?.mp hb
      obtain ⟨positions, hpicks⟩ := ih hrest hcovered
      refine ⟨ix :: positions, ?_⟩
      rw [valueSum, List.map_cons, List.sum_cons, hy, Option.getD_some]
      exact Picks.cons hix htuple hpicks

/-- Where no map has overlaps, the values of boxes that share a tuple are those
of the maps. -/
theorem Picks.eq_valueSum (hlevels : ∀ m ∈ levels, m.IsOver d)
    (hdisjoint : ∀ m ∈ levels, m.IsDisjoint)
    (h : Picks tuple levels positions x) : x = valueSum levels tuple := by
  induction h with
  | nil => rfl
  | @cons m levels ix positions b x hb htuple _ ih =>
      obtain ⟨hm, hrest⟩ := List.forall_mem_cons.mp hlevels
      obtain ⟨hmdisjoint, hdisjoint⟩ := List.forall_mem_cons.mp hdisjoint
      have hvalue := PiecewiseMap.eval?_of_contains hm.full hmdisjoint
        (Array.mem_of_getElem? hb) htuple
      rw [valueSum, List.map_cons, List.sum_cons, hvalue, Option.getD_some,
        ih hrest hdisjoint, valueSum]

/-- Adding up values that may be absent gives a sum exactly if none is. -/
theorem foldl_eq_some_iff {β : Type} {add : Option ℚ → β → Option ℚ}
    {f : β → Option ℚ} (hnone : ∀ b, add none b = none)
    (hsome : ∀ y b, add (some y) b = (f b).map (y + ·)) (xs : List β)
    (y v : ℚ) :
    xs.foldl add (some y) = some v ↔
      (∀ b ∈ xs, (f b).isSome = true) ∧
        v = y + (xs.map fun b => (f b).getD 0).sum := by
  induction xs generalizing y with
  | nil =>
      rw [List.foldl_nil, Option.some.injEq, List.map_nil, List.sum_nil, add_zero]
      exact ⟨fun h => ⟨nofun, h.symm⟩, fun h => h.2.symm⟩
  | cons b xs ih =>
      rw [List.foldl_cons, hsome]
      cases hb : f b with
      | none =>
          have habsent : xs.foldl add none = none := by
            clear ih
            induction xs with
            | nil => rfl
            | cons c xs ih => rw [List.foldl_cons, hnone, ih]
          simp [habsent, hb]
      | some z => simp [ih, hb, add_assoc]

theorem valueAt?_eq_some_iff (hlevels : ∀ m ∈ levels, m.IsOver d) :
    Search.valueAt? levels tuple = some x ↔
      CoveredBy levels tuple ∧ x = valueSum levels tuple := by
  unfold Search.valueAt?
  rw [foldl_eq_some_iff (f := (·.eval? tuple)) (fun _ => rfl)
    (fun y m => by cases m.eval? tuple <;> rfl)]
  refine and_congr (forall₂_congr fun m hm => ?_) ?_
  · exact PiecewiseMap.eval?_isSome (hlevels m hm).full tuple
  · rw [Nat.cast_zero, zero_add, valueSum]

/-- The bound on the completions of a region adds up the bounds of the maps,
none of which may be missing. -/
theorem completionBound_eq_some_iff (levels : List (PiecewiseMap ℚ)) (v : ℚ) :
    completionBound levels region = some v ↔
      (∀ m ∈ levels, (m.bound region).isSome = true) ∧
        v = region.maxVal + (levels.map fun m => (m.bound region).getD 0).sum := by
  unfold completionBound
  rw [foldl_eq_some_iff (f := (·.bound region)) (fun _ => rfl)
    (fun y m => by cases m.bound region <;> rfl)]

/-- A bound on the completions of a region covers the values of boxes that
share a tuple of the region. -/
theorem covers_completionBound (hlevels : ∀ m ∈ levels, m.IsOver d)
    (hregion : Search.IsRegion d region) (htuple : region.contains tuple = true)
    (h : Picks tuple levels positions x) :
    Scalar.Covers (completionBound levels region) (region.eval tuple + x) := by
  have hbounds : (∀ m ∈ levels, (m.bound region).isSome = true) ∧
      x ≤ (levels.map fun m => (m.bound region).getD 0).sum := by
    induction h with
    | nil => exact ⟨nofun, le_refl 0⟩
    | @cons m levels ix positions b x hb hbt _ ih =>
        obtain ⟨hm, hrest⟩ := List.forall_mem_cons.mp hlevels
        have hbm := Array.mem_of_getElem? hb
        have hdim : b.dimensions = region.dimensions := by
          rw [hregion.dimensions, hm.dimensions hbm]
        have hmeet := (Box.intersects_iff_exists hdim).mpr ⟨tuple, hbt, htuple⟩
        obtain ⟨y, hy, hle⟩ := PiecewiseMap.covers_bound hm.full hbm hmeet
        have hvalue := Box.evalAs_le_maxValAs hbt m.degree
        obtain ⟨hall, hsum⟩ := ih hrest
        constructor
        · rw [List.forall_mem_cons, hy]
          exact ⟨rfl, hall⟩
        · rw [List.map_cons, List.sum_cons, hy, Option.getD_some]
          exact add_le_add (hvalue.trans hle) hsum
  refine ⟨_, (completionBound_eq_some_iff levels _).mpr ⟨hbounds.1, rfl⟩, ?_⟩
  exact add_le_add (Box.eval_le_maxVal htuple) hbounds.2

end Values

end IntervalProgramming
