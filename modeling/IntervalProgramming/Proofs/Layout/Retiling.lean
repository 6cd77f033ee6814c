import Mathlib.Data.List.Perm.Basic
import IntervalProgramming.Proofs.Layout.Plateaus

/-!
# A region laid out anew

Laying out a region anew changes a map inside the region and nowhere else.
Inside, the boxes are flat tiles no wider than the unit box, one for each
tuple.  Outside, as many boxes hold a tuple as before and they have the models
of the boxes that held it.  No box crosses the border of the region.
-/

namespace IntervalProgramming

variable {α : Type} [Scalar α]

/-! ## The extents of tiles -/

theorem Interval.span_tile_le (i : Interval) (w c : ℕ) :
    (i.tile w c).span ≤ w - 1 := by
  simp only [tile, span]
  omega

theorem Interval.width_le (i : Interval) : i.width ≤ i.span + 1 :=
  Nat.min_le_left _ _

namespace Box

theorem span_le_of_mem_tileAxes {region unit : Box α} {part : List Extent}
    (hlen : region.extents.length = unit.extents.length)
    (hpart : part ∈ Tuple.firstFastest (tileAxes region unit)) :
    List.Forall₂ (fun x u : Extent => x.span ≤ u.span) part unit.extents := by
  have hpairs : List.Forall₂ (fun x u : Extent => x.span ≤ u.span) part
      ((region.extents.zip unit.extents).map Prod.snd) := by
    rw [List.forall₂_map_right_iff]
    refine (forall₂_of_mem_tileAxes hpart).flip.imp fun x p hx => ?_
    obtain ⟨c, rfl⟩ := hx
    exact (p.1.span_tile_le p.2.width c).trans (Nat.sub_le_of_le_add p.2.width_le)
  rwa [List.map_snd_zip hlen.ge] at hpairs

/-- A flat tile of a region, no wider than the unit box along any dimension. -/
structure IsTileOf (b region unit : Box α) : Prop where
  within : b.isWithin region = true
  narrow : List.Forall₂ (fun e u : Extent => e.span ≤ u.span) b.extents unit.extents
  isFlat : b = flat b.extents

theorem isTileOf_of_mem_tiles? {region unit tile : Box α} {tiles : List (Box α)}
    (h : region.tiles? unit = some tiles) (htile : tile ∈ tiles) :
    tile.IsTileOf region unit := by
  have hwithin := isWithin_of_mem_tiles? h htile
  obtain ⟨hlen, rfl⟩ := tiles?_eq_some h
  obtain ⟨part, hpart, rfl⟩ := List.mem_map.mp htile
  constructor
  case within => exact hwithin
  case narrow => exact span_le_of_mem_tileAxes hlen hpart
  case isFlat => rfl

/-! ## Models outside the region -/

theorem perm_modelsAt {boxes others : List (Box α)} (h : boxes.Perm others)
    (tuple : List ℕ) : (modelsAt boxes tuple).Perm (modelsAt others tuple) :=
  (h.filter _).map _

/-- Outside a region the boxes clear of it and what is left of the others have
the models of all boxes. -/
theorem perm_modelsAt_retiled {region : Box α} {tuple : List ℕ}
    (h : region.contains tuple = false) (boxes : List (Box α)) :
    (modelsAt (boxes.filter (fun b => !b.intersects region) ++
      subtractFrom (boxes.filter (·.intersects region)) region) tuple).Perm
        (modelsAt boxes tuple) := by
  rw [modelsAt_append, modelsAt_subtractFrom h, ← modelsAt_append]
  apply perm_modelsAt
  exact List.perm_append_comm.trans
    (List.filter_append_perm (·.intersects region) boxes)

theorem intersects_eq_false_of_mem_subtractFrom {boxes : List (Box α)}
    {region part : Box α} (hpart : part ∈ subtractFrom boxes region) :
    part.intersects region = false := by
  obtain ⟨b, -, hpart⟩ := List.mem_flatMap.mp hpart
  exact intersects_eq_false_of_mem_subtract hpart

end Box

namespace PiecewiseMap

variable {m m' : PiecewiseMap α} {region unit : Box α}

/-! ## When a region can be laid out anew -/

/-- Whether a region lies in the box of all indices of a map's domain, with a
unit box of as many extents and no wider one. -/
def Accommodates (m : PiecewiseMap α) (region unit : Box α) : Prop :=
  ∃ whole, m.universe? = some whole ∧ region.isWithin whole = true ∧
    List.Forall₂ (fun u e : Extent => u.span ≤ e.span) unit.extents region.extents

theorem exists_retile?_iff_accommodates :
    (∃ m', m.retile? region unit = some m') ↔ m.Accommodates region unit := by
  unfold Accommodates universe?
  by_cases hd : m.domain.isEmpty = true
  · simp [retile?, universe?, Box.universe?, hd]
  · rw [Bool.not_eq_true] at hd
    obtain ⟨whole, hwhole⟩ := Box.exists_universe? hd
    rw [exists_retile?_iff hd, hwhole, ← Box.isWithin_universe_iff hwhole]
    simp

/-! ## What a new layout changes -/

/-- A map whose boxes inside a region are replaced by tiles in the widths of a
unit box. -/
structure Retiles (m : PiecewiseMap α) (region unit : Box α)
    (m' : PiecewiseMap α) : Prop where
  domain : m'.domain = m.domain
  degree : m'.degree = m.degree
  gridCell : m'.gridCell = m.gridCell
  full : m'.IsFull
  /-- The boxes clear of the region come first, as they are and in their
  order. -/
  front : m.boxes.toList.filter (fun b => !b.intersects region) <+: m'.boxes.toList
  /-- No box crosses the border of the region. -/
  border : ∀ b ∈ m'.boxes, b.isWithin region = true ∨ b.intersects region = false
  /-- Outside the region as many boxes hold a tuple as before, under the models
  of the boxes that held it. -/
  outside : ∀ tuple, region.contains tuple = false →
    Box.holders m'.boxes.toList tuple = Box.holders m.boxes.toList tuple ∧
    (Box.modelsAt m'.boxes.toList tuple).Perm (Box.modelsAt m.boxes.toList tuple)
  /-- Inside the region one box holds a tuple, and it is a tile. -/
  inside : ∀ tuple, region.contains tuple = true →
    Box.holders m'.boxes.toList tuple = 1 ∧
    ∃ b ∈ m'.boxes, b.contains tuple = true ∧ b.IsTileOf region unit

theorem isFull_retile? (hfull : m.IsFull) (h : m.retile? region unit = some m') :
    m'.IsFull := by
  rw [isFull_iff_dimensions] at hfull ⊢
  rw [domain_retile? h]
  exact dimensions_retile? hfull h

/-- A box of the new layout is clear of the region, or one of its tiles. -/
theorem clear_or_isTileOf_retile? (h : m.retile? region unit = some m') {b : Box α}
    (hb : b ∈ m'.boxes) : b.intersects region = false ∨ b.IsTileOf region unit := by
  obtain ⟨whole, tiles, -, -, htiles, rfl⟩ := retile?_eq_some h
  simp only [withBoxes, List.mem_toArray, List.mem_append, List.mem_filter,
    Bool.not_eq_true'] at hb
  rcases hb with (⟨-, hclear⟩ | hb) | hb
  · exact Or.inl hclear
  · exact Or.inl (Box.intersects_eq_false_of_mem_subtractFrom hb)
  · exact Or.inr (Box.isTileOf_of_mem_tiles? htiles hb)

theorem retiles_retile? (hfull : m.IsFull) (h : m.retile? region unit = some m') :
    m.Retiles region unit m' := by
  have hfull' := isFull_retile? hfull h
  have hboxes := fun b => clear_or_isTileOf_retile? h (b := b)
  obtain ⟨whole, tiles, hwhole, hwithin, htiles, rfl⟩ := retile?_eq_some h
  have hregion : region.dimensions = List.range m.domain.size :=
    Box.dimensions_of_isWithin_universe hwhole hwithin
  have hdim : ∀ b ∈ m.boxes.toList, b.dimensions = region.dimensions := by
    intro b hb
    rw [isFull_iff_dimensions.mp hfull b hb, hregion]
  have hholders := Box.holders_tiles? htiles
  constructor
  case domain => rfl
  case degree => rfl
  case gridCell => rfl
  case full => exact hfull'
  case front =>
    simp only [withBoxes, List.append_assoc]
    exact List.prefix_append _ _
  case border =>
    intro b hb
    rcases hboxes b hb with hclear | htile
    · exact Or.inr hclear
    · exact Or.inl htile.within
  case outside =>
    intro tuple houtside
    have hnone : Box.modelsAt tiles tuple = [] := by
      apply Box.modelsAt_eq_nil
      intro tile htile
      rw [Bool.eq_false_iff]
      intro hheld
      have hin := Box.eq_true_of_holders (hholders tuple) htile hheld
      rw [houtside] at hin
      cases hin
    have hmodels := Box.perm_modelsAt_retiled houtside m.boxes.toList
    simp only [withBoxes]
    rw [← Box.length_modelsAt, ← Box.length_modelsAt, Box.modelsAt_append, hnone,
      List.append_nil]
    exact ⟨hmodels.length_eq, hmodels⟩
  case inside =>
    intro tuple hinside
    have hone : Box.holders tiles tuple = 1 := by
      rw [hholders, hinside, Bool.toNat_true]
    have hrest : Box.holders
        (m.boxes.toList.filter (fun b => !b.intersects region) ++
          Box.subtractFrom (m.boxes.toList.filter (·.intersects region)) region)
        tuple = 0 := by
      rw [Box.holders_append, Box.holders_filter_clear, Box.holders_subtractFrom hdim,
        hinside, Bool.not_true, Bool.toNat_false, Nat.zero_mul]
    constructor
    · simp only [withBoxes]
      rw [Box.holders_append, hrest, hone]
    · obtain ⟨tile, htile, hheld⟩ := Box.holders_pos_iff.mp (hone ▸ Nat.one_pos)
      refine ⟨tile, ?_, hheld, Box.isTileOf_of_mem_tiles? htiles htile⟩
      simp only [withBoxes, List.mem_toArray, List.mem_append]
      exact Or.inr htile

/-- A region can be laid out anew exactly if it lies in the domain with all its
dimensions and the unit box has as many extents of which none is wider.  In a
map over full dimensions the region is then laid out in tiles and all else
stays, so a partition stays a partition. -/
theorem region_retiled (hfull : m.IsFull) (region unit : Box α) :
    (¬ m.Accommodates region unit → m.retile? region unit = none) ∧
    (m.Accommodates region unit → ∃ m', m.retile? region unit = some m' ∧
      m.Retiles region unit m' ∧
      (m.domain.PartitionedBy m.boxes.toList →
        m'.domain.PartitionedBy m'.boxes.toList)) := by
  constructor
  · intro hnot
    rw [Option.eq_none_iff_forall_ne_some]
    intro m' h
    exact hnot (exists_retile?_iff_accommodates.mp ⟨m', h⟩)
  · intro hfits
    obtain ⟨m', h⟩ := exists_retile?_iff_accommodates.mpr hfits
    refine ⟨m', h, retiles_retile? hfull h, fun hpart => ?_⟩
    obtain ⟨hdomain, hpart'⟩ := partitionedBy_retile? hpart h
    rwa [hdomain]

/-- One index of the switch laid out anew: a flat box has it, and the other
index keeps its model. -/
theorem region_retiled_switch :
    let m := ofBoxes Domain.switch .constant [Box.onSwitch Interval.switch 5]
    let region := Box.onSwitch (Interval.point 1) 7
    m.IsFull ∧ m.Accommodates region region ∧
      ∃ m', m.retile? region region = some m' ∧
        Box.modelsAt m'.boxes.toList [0] = [([0], 5)] ∧
        Box.holders m'.boxes.toList [1] = 1 := by
  intro m region
  have hfull : m.IsFull := by
    intro b hb
    obtain rfl : b = Box.onSwitch Interval.switch 5 := by
      simpa [m, ofBoxes] using hb
    rfl
  have hfits : m.Accommodates region region :=
    ⟨_, rfl, rfl, List.forall₂_same.mpr fun _ _ => le_rfl⟩
  obtain ⟨-, hsome⟩ := region_retiled hfull region region
  obtain ⟨m', h, hretiles, -⟩ := hsome hfits
  obtain ⟨-, hmodels⟩ := hretiles.outside [0] rfl
  obtain ⟨hone, -⟩ := hretiles.inside [1] rfl
  exact ⟨hfull, hfits, m', h, List.perm_singleton.mp hmodels, hone⟩

end PiecewiseMap

end IntervalProgramming
