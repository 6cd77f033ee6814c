import IntervalProgramming.Proofs.Box.Holders
import IntervalProgramming.Proofs.Solve.Combinations

/-!
# Bounds on narrowed regions

Narrowing a region by a box adds the model of the box, and the maximum of the
sum over the smaller region is at most the sum of the two maxima.  Every box
that narrows a part of a region meets the region itself, so its maximum is
covered by the bound of its map inside the region.  Summed over the maps this
bounds every region that the given one can be narrowed to.  The maps need not
share a domain.
-/

namespace IntervalProgramming

namespace Box

/-- The maximum over an intersection is at most the sum of the maxima. -/
theorem maxVal_meetAs?_le {b c r : Box ℚ} {degree : Degree}
    (hb : b.slopes.length = b.extents.length)
    (hc : c.slopes.length = c.extents.length)
    (h : b.meetAs? c degree = some r) :
    r.maxVal ≤ b.maxVal + c.maxValAs degree := by
  have hmem := contains_maxPoint (length_slopes_meetAs? hb hc h)
  obtain ⟨hbp, hcp⟩ := (contains_meetAs? h _).mp hmem
  calc r.maxVal = r.eval r.maxPoint := (eval_maxPoint r).symm
    _ = b.eval r.maxPoint + c.evalAs r.maxPoint degree := eval_meetAs? hb hc h _
    _ ≤ b.maxVal + c.maxValAs degree :=
      add_le_add (eval_le_maxVal hbp) (evalAs_le_maxValAs hcp degree)

/-- An intersection lies in the first box, and the second meets every box that
the first one lies in. -/
theorem isWithin_meetAs? {b c r query : Box ℚ} {degree : Degree}
    (hquery : b.isWithin query = true) (h : b.meetAs? c degree = some r) :
    r.isWithin query = true ∧ c.intersects query = true := by
  have hwithin : r.isWithin b = true := by
    rw [isWithin_iff_forall (dimensions_meetAs? h)]
    exact fun tuple htuple => ((contains_meetAs? h tuple).mp htuple).1
  have hmeet : b.intersects c = true := by
    rw [← meetAs?_isSome b c degree, h]
    rfl
  have hdim : c.dimensions = query.dimensions := by
    rw [← dimensions_eq_of_intersects hmeet, dimensions_eq_of_isWithin hquery]
  obtain ⟨hbl, hcl⟩ := (contains_meetAs? h r.lows).mp (contains_lows r)
  refine ⟨isWithin_trans hwithin hquery, ?_⟩
  exact (intersects_iff_exists hdim).mpr
    ⟨r.lows, hcl, contains_of_isWithin hquery hbl⟩

end Box

variable {levels : List (PiecewiseMap ℚ)} {region r : Box ℚ} {positions : List ℕ}

/-- Along a narrowing the maximum grows by no more than the bounds inside any
box that the region starts in, and none of these bounds is missing. -/
theorem maxVal_narrow?_le {query : Box ℚ}
    (hlevels : ∀ m ∈ levels, m.IsFull ∧ m.IsModelled)
    (hregion : region.slopes.length = region.extents.length)
    (hquery : region.isWithin query = true)
    (h : Search.narrow? levels region positions = some r) :
    (∀ m ∈ levels, (m.bound query).isSome = true) ∧
      r.maxVal ≤ region.maxVal + (levels.map fun m => (m.bound query).getD 0).sum := by
  induction levels generalizing region positions with
  | nil =>
      cases positions with
      | nil =>
          obtain rfl := Option.some.inj h
          exact ⟨nofun, (add_zero _).ge⟩
      | cons ix positions => cases h
  | cons m levels ih =>
      cases positions with
      | nil => cases h
      | cons ix positions =>
          simp only [Search.narrow?, Option.bind_eq_some_iff] at h
          obtain ⟨narrowed, ⟨b, hb, hmeet⟩, h⟩ := h
          obtain ⟨⟨hfull, hmodelled⟩, hrest⟩ := List.forall_mem_cons.mp hlevels
          have hbm := Array.mem_of_getElem? hb
          have hslopes := hmodelled b hbm
          obtain ⟨hwithin, hmeets⟩ := Box.isWithin_meetAs? hquery hmeet
          obtain ⟨y, hy, hle⟩ := PiecewiseMap.covers_bound hfull hbm hmeets
          have hstep := Box.maxVal_meetAs?_le hregion hslopes hmeet
          obtain ⟨hall, hsum⟩ := ih hrest
            (Box.length_slopes_meetAs? hregion hslopes hmeet) hwithin h
          constructor
          · rw [List.forall_mem_cons, hy]
            exact ⟨rfl, hall⟩
          · rw [List.map_cons, List.sum_cons, hy, Option.getD_some]
            linarith

/-- The bound of a map inside a query, with or without a grid, lies above the
value of every box at every point that lies in both.  The maximum of a region,
which has one slope for each extent as boxes do, plus the bounds of some maps
inside of it lies above the maximum of every region that arises by intersecting
it with one box of each map. -/
theorem bound_sound :
    (∀ {m : PiecewiseMap ℚ}, m.IsFull → m.IsModelled →
      ∀ {query b point : Box ℚ}, b ∈ m.boxes → point.isPoint = true →
      point.isWithin b = true → point.isWithin query = true →
      Scalar.Covers (m.bound query) (b.evalAs point.lows m.degree)) ∧
    ∀ {levels : List (PiecewiseMap ℚ)} {region r : Box ℚ} {positions : List ℕ},
      (∀ m ∈ levels, m.IsFull ∧ m.IsModelled) →
      region.slopes.length = region.extents.length →
      Search.narrow? levels region positions = some r →
      Scalar.Covers (completionBound levels region) r.maxVal := by
  constructor
  · intro m hfull _ query b point hb _ hpb hpq
    have hdim : b.dimensions = query.dimensions := by
      rw [← Box.dimensions_eq_of_isWithin hpb, Box.dimensions_eq_of_isWithin hpq]
    have hbt := Box.contains_of_isWithin hpb point.contains_lows
    have hqt := Box.contains_of_isWithin hpq point.contains_lows
    have hmeet : b.intersects query = true :=
      (Box.intersects_iff_exists hdim).mpr ⟨point.lows, hbt, hqt⟩
    have hvalue := Box.evalAs_le_maxValAs hbt m.degree
    exact (PiecewiseMap.covers_bound hfull hb hmeet).mono hvalue
  · intro levels region r positions hlevels hregion h
    obtain ⟨hall, hsum⟩ := maxVal_narrow?_le hlevels hregion
      (Box.isWithin_self region) h
    exact ⟨_, (completionBound_eq_some_iff levels _).mpr ⟨hall, rfl⟩, hsum⟩

/-- At the upper index of the switch the bound of a map with the values 3 and 7
covers 7, and the bound on a region of value 2 over both indices covers its
intersection with the second box. -/
theorem bound_sound_switch :
    let m := PiecewiseMap.onSwitch [(Interval.point 0, 3), (Interval.point 1, 7)]
    Scalar.Covers (m.updateGrid.bound (Box.onSwitch Interval.switch 0)) 7 ∧
      Scalar.Covers (completionBound [m] (Box.onSwitch Interval.switch 2)) 9 := by
  intro m
  obtain ⟨hvalues, hregions⟩ := bound_sound
  have hm := PiecewiseMap.isOver_onSwitch
    [(Interval.point 0, 3), (Interval.point 1, 7)]
  have hb : m.boxes[1]? = some (Box.onSwitch (Interval.point 1) 7) := rfl
  have hbm := Array.mem_of_getElem? hb
  constructor
  · have hfull : m.updateGrid.IsFull := hm.full
    have hmodelled : m.updateGrid.IsModelled := hm.modelled
    have hpoint : (Box.ofPoint [1] : Box ℚ).isPoint = true := by decide
    have hin : (Box.ofPoint [1]).isWithin (Box.onSwitch (Interval.point 1) 7) = true := by
      decide
    have hquery : (Box.ofPoint [1]).isWithin (Box.onSwitch Interval.switch 0) = true := by
      decide
    exact hvalues hfull hmodelled hbm hpoint hin hquery
  · obtain ⟨r, hr⟩ : ∃ r, Search.narrow? [m] (Box.onSwitch Interval.switch 2) [1] =
        some r := ⟨_, rfl⟩
    have hcovered := hregions (List.forall_mem_singleton.mpr ⟨hm.full, hm.modelled⟩)
      rfl hr
    have hmax : r.maxVal = 9 := by
      obtain rfl := Option.some.inj hr
      decide +kernel
    rwa [hmax] at hcovered

end IntervalProgramming
