import IntervalProgramming.Proofs.Layout.Scan

/-!
# Tile counts in index words

The width of a unit is held in an index word, and is one short of exact for a unit
of all indices.  It shows only in a region that has all indices too: two tiles are
laid there where one would do.  No region of a domain has all indices.
-/

namespace IntervalProgramming

variable {α : Type} [Scalar α]

/-! ## The number of tiles -/

namespace Interval

/-- Whether an interval has all indices. -/
def isWhole (i : Interval) : Bool :=
  i.span == maxIndex

/-- An interval has the tiles that exact widths ask for, and twice as many if
it and the unit both have all indices. -/
theorem span_div_width_succ {i u : Interval} (hi : i.span ≤ maxIndex)
    (hu : u.span ≤ maxIndex) :
    i.span / u.width + 1 =
      ceilDiv (i.span + 1) (u.span + 1) * 2 ^ (i.isWhole && u.isWhole).toNat := by
  rw [ceilDiv_succ i.span (Nat.succ_pos u.span)]
  by_cases hboth : i.span = maxIndex ∧ u.span = maxIndex
  · obtain ⟨hi, hu⟩ := hboth
    have hwhole : (i.isWhole && u.isWhole) = true := by simp [isWhole, hi, hu]
    have hpos : 0 < maxIndex := by
      rw [maxIndex_eq]
      omega
    rw [hwhole, width_of_le hu.ge, hi, hu, Nat.div_self hpos,
      Nat.div_eq_of_lt (Nat.lt_succ_self _)]
    rfl
  · have hwhole : (i.isWhole && u.isWhole) = false := by
      simpa [isWhole] using hboth
    have hless : i.span < maxIndex ∨ u.span < maxIndex := by omega
    rw [hwhole, span_div_width hless, Bool.toNat_false, Nat.pow_zero, Nat.mul_one]

end Interval

namespace Box

variable {region unit : Box α} {tiles : List (Box α)}

/-- The number of tiles of a region that the exact widths of a unit ask for. -/
def tilesNeeded (region unit : Box α) : ℕ :=
  ((region.extents.zip unit.extents).map fun p =>
    ceilDiv (p.1.span + 1) (p.2.span + 1)).prod

/-- Along how many dimensions a region and a unit both have all indices. -/
def wholeDims (region unit : Box α) : ℕ :=
  (region.extents.zip unit.extents).countP fun p => p.1.isWhole && p.2.isWhole

theorem InWords.span_le {b : Box α} (h : b.InWords) :
    ∀ e ∈ b.extents, e.span ≤ maxIndex :=
  fun e he => (Nat.sub_le e.hi e.lo).trans (h e he).2

/-- Each dimension along which a region and a unit both have all indices
doubles the number of tiles. -/
theorem prod_axisCounts (hregion : region.InWords) (hunit : unit.InWords) :
    (region.axisCounts unit).prod =
      region.tilesNeeded unit * 2 ^ region.wholeDims unit := by
  have hes := hregion.span_le
  have hus := hunit.span_le
  rw [axisCounts, tilesNeeded, wholeDims]
  generalize region.extents = es at hes ⊢
  generalize unit.extents = us at hus ⊢
  induction es generalizing us with
  | nil => rfl
  | cons e es ih =>
      cases us with
      | nil => rfl
      | cons u us =>
          obtain ⟨he, hes⟩ := List.forall_mem_cons.mp hes
          obtain ⟨hu, hus⟩ := List.forall_mem_cons.mp hus
          rw [List.zipWith_cons_cons, List.prod_cons, ih hes us hus,
            Interval.span_div_width_succ he hu, Nat.mul_mul_mul_comm, ← Nat.pow_add,
            List.zip_cons_cons, List.map_cons, List.prod_cons, List.countP_cons,
            Bool.toNat, Bool.cond_eq_ite, Nat.add_comm (ite _ _ _)]

/-- No region of a domain has all indices along a dimension. -/
theorem wholeDims_of_isWithin {d : Domain α} {whole : Box α}
    (hwhole : universe? d = some whole) (h : region.isWithin whole = true)
    (unit : Box α) : region.wholeDims unit = 0 := by
  rw [isWithin_eq_true_iff, List.forall₂_iff_get] at h
  obtain ⟨hlen, hbounds⟩ := h
  rw [wholeDims, List.countP_eq_zero]
  intro p hp hboth
  obtain ⟨k, hk, hpk⟩ := List.mem_iff_getElem.mp (List.of_mem_zip hp).1
  have hk' : k < whole.extents.length := hlen ▸ hk
  have hextent := getElem?_extents_universe hwhole k
  rw [List.getElem?_eq_getElem hk'] at hextent
  obtain ⟨v, -, hv⟩ := Option.map_eq_some_iff.mp hextent.symm
  obtain ⟨-, -, hhi⟩ := hbounds k hk hk'
  rw [List.get_eq_getElem, List.get_eq_getElem, hpk, ← hv] at hhi
  have hlt : p.1.span < maxIndex :=
    ((Nat.sub_le _ _).trans hhi).trans_lt v.span_indices_lt
  rw [Bool.and_eq_true, Interval.isWhole, beq_iff_eq] at hboth
  exact hlt.ne hboth.1

/-- A unit at least as long as the region asks for one tile. -/
theorem tilesNeeded_eq_one
    (h : ∀ p ∈ region.extents.zip unit.extents, p.1.span ≤ p.2.span) :
    region.tilesNeeded unit = 1 := by
  rw [tilesNeeded]
  apply List.prod_eq_one
  rw [List.forall_mem_map]
  intro p hp
  rw [ceilDiv_succ _ (Nat.succ_pos p.2.span),
    Nat.div_eq_of_lt (Nat.lt_succ_of_le (h p hp)), Nat.zero_add]

/-- A single tile is the region. -/
theorem tiles_eq_singleton_iff (h : region.tiles? unit = some tiles) :
    tiles = [flat region.extents] ↔ tiles.length = 1 := by
  constructor
  · rintro rfl
    rfl
  · intro hlen
    obtain ⟨tile, rfl⟩ := List.length_eq_one_iff.mp hlen
    have hextents : tile.extents = region.extents := by
      apply extents_eq_of_contains_iff (dimensions_tiles? h (List.mem_singleton_self _))
      intro tuple
      have hholders := holders_tiles? h tuple
      rw [holders_cons, holders_nil, Nat.add_zero] at hholders
      rw [← Bool.toNat_eq_one, hholders, Bool.toNat_eq_one]
    obtain ⟨-, hflat⟩ := tiles?_eq_some h
    obtain ⟨part, -, rfl⟩ := List.mem_map.mp (hflat ▸ List.mem_singleton_self tile)
    rw [← hextents]
    rfl

/-- The tiles of a region are as many as exact widths ask for, and a unit at
least as long as the region leaves it in one piece, unless there is a dimension
along which both have all indices: each such dimension doubles their number.  A
region of a domain has no such dimension.  The tiles are those laid in words, by
scans along the extents, as long as their number is a word. -/
theorem tiles_exact_iff (hregion : region.InWords)
    (hdim : increasing region.extents = true) (hunit : unit.InWords)
    (hdims : region.dims = unit.dims) :
    (∀ e ∈ region.extents, ∀ u ∈ unit.extents,
      scanTiles u.width e.hi e.lo = (e.tiles u.width).map fun t => (t.lo, t.hi)) ∧
    ∃ tiles, region.tiles? unit = some tiles ∧
      tiles.length = region.tilesNeeded unit * 2 ^ region.wholeDims unit ∧
      (tiles.length = region.tilesNeeded unit ↔ region.wholeDims unit = 0) ∧
      ((∀ p ∈ region.extents.zip unit.extents, p.1.span ≤ p.2.span) →
        (tiles = [flat region.extents] ↔ region.wholeDims unit = 0)) ∧
      (∀ (d : Domain α) whole, universe? d = some whole → region.isWithin whole = true →
        tiles.length = region.tilesNeeded unit) ∧
      (tiles.length < countLimit → region.tilesInWords? unit = some (some tiles)) := by
  obtain ⟨tiles, htiles⟩ := exists_tiles? hdim hdims
  have hcount := length_tiles? htiles
  have hlen := hcount.trans (prod_axisCounts hregion hunit)
  have hexact : tiles.length = region.tilesNeeded unit ↔
      region.wholeDims unit = 0 := by
    have hneeded : region.tilesNeeded unit ≠ 0 := by
      intro hzero
      rw [hzero, Nat.zero_mul, List.length_eq_zero_iff] at hlen
      exact tiles?_ne_nil htiles hlen
    rw [hlen, Nat.mul_eq_left hneeded, Nat.pow_eq_one]
    omega
  refine ⟨?_, tiles, htiles, hlen, hexact, ?_, ?_, ?_⟩
  · intro e he u _
    exact Interval.scanTiles_eq (hregion e he).2 u.width_pos
  · intro hlong
    rw [tiles_eq_singleton_iff htiles, ← hexact, tilesNeeded_eq_one hlong]
  · intro d whole hwhole hwithin
    exact hexact.mpr (wholeDims_of_isWithin hwhole hwithin unit)
  · intro hword
    rw [tilesInWords?_eq hregion (hcount ▸ hword), htiles]

/-- The box of all indices of one dimension. -/
def allIndices : Box ℚ :=
  flat [{ lo := 0, hi := maxIndex, le := Nat.zero_le _, dim := 0 }]

/-- A unit of all indices leaves a shorter region in one piece. -/
theorem tiles_exact_iff_short :
    let region : Box ℚ := flat [{ lo := 3, hi := 9, dim := 0 }]
    region.tiles? allIndices = some [region] := by
  intro region
  have hregion : region.InWords := by decide
  have hunit : allIndices.InWords := by decide
  obtain ⟨-, tiles, htiles, -, -, hsingle, -, -⟩ := tiles_exact_iff hregion rfl hunit rfl
  have hlong : ∀ p ∈ region.extents.zip allIndices.extents,
      p.1.span ≤ p.2.span := by
    decide
  rw [htiles, (hsingle hlong).mpr rfl]
  rfl

/-- A unit of all indices cuts a region of all indices in two, though exact
widths ask for one tile. -/
theorem allIndices_in_two :
    allIndices.InWords ∧ increasing allIndices.extents = true ∧
      allIndices.tilesNeeded allIndices = 1 ∧
      (allIndices.tiles? allIndices).map
          (fun tiles => tiles.map fun b => b.extents.map fun e => (e.lo, e.hi)) =
        some [[(0, 4294967294)], [(4294967295, 4294967295)]] := by
  exact ⟨by decide, rfl, by decide, by decide⟩

end Box

end IntervalProgramming
