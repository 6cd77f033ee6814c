import IntervalProgramming.Proofs.Box.Holders
import IntervalProgramming.Proofs.Grid.Cells

/-!
# Partitions and regular tilings

The tiles of a region hold each tuple of the region once and no other tuple.
So the regular tiling of a domain partitions it, whatever the widths of the
unit are.
-/

namespace IntervalProgramming

variable {α : Type} [Scalar α]

/-! ## Partitions of a domain -/

/-- Whether a tuple has one index for each variable of a domain and each lies
below the number of points of its variable. -/
def Domain.HasTuple (d : Domain α) (tuple : List ℕ) : Prop :=
  List.Forall₂ (· < ·) tuple d.counts

/-- A box over all dimensions of a domain that lies in it. -/
structure Domain.HasBox (d : Domain α) (b : Box α) : Prop where
  dimensions : b.dimensions = List.range d.size
  inside : ∀ tuple, b.contains tuple = true → d.HasTuple tuple

/-- Boxes over all dimensions of a domain that lie in it, such that each tuple
of the domain is held by exactly one of them. -/
structure Domain.PartitionedBy (d : Domain α) (boxes : List (Box α)) : Prop where
  full : ∀ b ∈ boxes, b.dimensions = List.range d.size
  inside : ∀ b ∈ boxes, ∀ tuple, b.contains tuple = true → d.HasTuple tuple
  holders : ∀ tuple, d.HasTuple tuple → Box.holders boxes tuple = 1

/-- A map over a domain whose boxes partition the domain. -/
structure PiecewiseMap.Partitions (m : PiecewiseMap α) (d : Domain α) : Prop where
  domain : m.domain = d
  boxes : d.PartitionedBy m.boxes.toList

namespace Box

theorem universe?_eq_some_iff {d : Domain α} {whole : Box α} :
    universe? d = some whole ↔ d.isEmpty = false ∧
      ofIntervals (d.vars.map fun v =>
        { lo := 0, hi := v.lastIndex, le := Nat.zero_le _ }) = whole := by
  unfold universe?
  by_cases h : d.isEmpty = true
  · simp [h]
  · simp [h]

theorem dimensions_ofIntervals (intervals : List Interval) :
    (ofIntervals intervals : Box α).dimensions = List.range intervals.length := by
  simp only [dimensions, ofIntervals, flat]
  apply List.ext_getElem
  · simp
  · intro k h₁ h₂
    simp

/-- The bounds of extents give the extents back. -/
theorem ofBounds?_bounds (es : List Extent) :
    (ofBounds? (es.map fun e => (e.dim, e.lo, e.hi)) : Option (Box α)) =
      ofExtents? es := by
  have hmapM : (es.map fun e => (e.dim, e.lo, e.hi)).mapM
      (fun b => Extent.of? b.1 b.2.1 b.2.2) = some es := by
    induction es with
    | nil => rfl
    | cons e es ih =>
        have hself : Extent.of? e.dim e.lo e.hi = some e := dif_pos e.le
        simp only [List.map_cons, List.mapM_cons, hself, ih]
        rfl
  rw [ofBounds?, hmapM]
  rfl

theorem dimensions_universe {d : Domain α} {whole : Box α}
    (h : universe? d = some whole) : whole.dimensions = List.range d.size := by
  obtain ⟨-, rfl⟩ := universe?_eq_some_iff.mp h
  rw [dimensions_ofIntervals, List.length_map, Domain.size]

theorem dims_universe {d : Domain α} {whole : Box α}
    (h : universe? d = some whole) : whole.dims = d.size := by
  have hlen := congrArg List.length (dimensions_universe h)
  rwa [dimensions, List.length_map, List.length_range] at hlen

theorem dimensions_of_isWithin_universe {d : Domain α} {whole b : Box α}
    (h : universe? d = some whole) (hb : b.isWithin whole = true) :
    b.dimensions = List.range d.size := by
  rw [dimensions_eq_of_isWithin hb, dimensions_universe h]

theorem contains_universe {d : Domain α} {whole : Box α}
    (h : universe? d = some whole) (tuple : List ℕ) :
    whole.contains tuple = true ↔ d.HasTuple tuple := by
  obtain ⟨-, rfl⟩ := universe?_eq_some_iff.mp h
  rw [contains_eq_true_iff, Domain.HasTuple, Domain.counts,
    List.forall₂_map_right_iff, List.forall₂_iff_get, List.forall₂_iff_get]
  have hcount : ∀ (v : Variable α) (j : ℕ), j < v.count ↔ 0 ≤ j ∧ j ≤ v.lastIndex := by
    intro v j
    have hpos := v.count_pos
    simp only [ValueRange.lastIndex]
    omega
  simp only [ofIntervals, flat, List.length_mapIdx, List.length_map,
    List.get_eq_getElem, List.getElem_mapIdx, List.getElem_map, Extent.Has, hcount]
  constructor
  · rintro ⟨hlen, hall⟩
    exact ⟨hlen.symm, fun k h₁ h₂ => hall k h₂ h₁⟩
  · rintro ⟨hlen, hall⟩
    exact ⟨hlen.symm, fun k h₁ h₂ => hall k h₂ h₁⟩

theorem exists_universe? {d : Domain α} (h : d.isEmpty = false) :
    ∃ whole, universe? d = some whole :=
  ⟨_, universe?_eq_some_iff.mpr ⟨h, rfl⟩⟩

/-- A box lies in the universe of a domain exactly if it lies in the domain and
has all its dimensions. -/
theorem isWithin_universe_iff {d : Domain α} {whole b : Box α}
    (h : universe? d = some whole) : b.isWithin whole = true ↔ d.HasBox b := by
  constructor
  · intro hwithin
    refine ⟨dimensions_of_isWithin_universe h hwithin, fun tuple htuple => ?_⟩
    · rw [← contains_universe h]
      exact contains_of_isWithin hwithin htuple
  · rintro ⟨hdim, hinside⟩
    rw [isWithin_iff_forall (hdim.trans (dimensions_universe h).symm)]
    intro tuple htuple
    rw [contains_universe h]
    exact hinside tuple htuple

/-- Boxes partition a domain exactly if they have all its dimensions and each
tuple is held by one of them or by none, as it is in the domain or not. -/
theorem partitionedBy_iff {d : Domain α} {whole : Box α}
    (h : universe? d = some whole) {boxes : List (Box α)} :
    d.PartitionedBy boxes ↔
      (∀ b ∈ boxes, b.dimensions = List.range d.size) ∧
        ∀ tuple, holders boxes tuple = (whole.contains tuple).toNat := by
  constructor
  · intro hpart
    refine ⟨hpart.full, fun tuple => ?_⟩
    by_cases htuple : whole.contains tuple = true
    · rw [htuple, Bool.toNat_true]
      exact hpart.holders tuple ((contains_universe h tuple).mp htuple)
    · rw [Bool.not_eq_true] at htuple
      rw [htuple, Bool.toNat_false]
      by_contra hne
      obtain ⟨b, hb, hbt⟩ := holders_pos_iff.mp (Nat.pos_of_ne_zero hne)
      have hwhole := (contains_universe h tuple).mpr (hpart.inside b hb tuple hbt)
      rw [htuple] at hwhole
      cases hwhole
  · rintro ⟨hfull, hholders⟩
    refine ⟨hfull, ?_, ?_⟩
    · intro b hb tuple hbt
      rw [← contains_universe h]
      exact eq_true_of_holders (hholders tuple) hb hbt
    · intro tuple htuple
      rw [hholders, (contains_universe h tuple).mpr htuple, Bool.toNat_true]

end Box

/-! ## Tiles -/

theorem Interval.tile_contains {i : Interval} {w c : ℕ} (hw : 0 < w)
    (hc : c < i.span / w + 1) (j : ℕ) :
    (i.tile w c).contains j = (i.contains j && decide ((j - i.lo) / w = c)) := by
  have hle := i.le
  have hstart : c * w ≤ i.span := (Nat.le_div_iff_mul_le hw).mp (by omega)
  rw [Bool.eq_iff_iff]
  simp only [tile, Bool.and_eq_true, contains_eq_true_iff, decide_eq_true_eq]
  rw [Nat.div_eq_iff hw]
  simp only [span] at hstart
  omega

/-- The tiles of an interval hold each of its indices once. -/
theorem Interval.countP_tiles (i : Interval) {w : ℕ} (hw : 0 < w) (j : ℕ) :
    (i.tiles w).countP (·.contains j) = (i.contains j).toNat := by
  rw [tiles, List.countP_map]
  have hcount : (List.range (i.span / w + 1)).countP
      ((fun t : Interval => t.contains j) ∘ i.tile w) =
      (List.range (i.span / w + 1)).countP
        fun c => i.contains j && decide ((j - i.lo) / w = c) := by
    apply List.countP_congr
    intro c hc
    rw [Function.comp_apply, tile_contains hw (List.mem_range.mp hc)]
  rw [hcount]
  cases hj : i.contains j with
  | false => simp
  | true =>
      rw [contains_eq_true_iff] at hj
      have hlt : (j - i.lo) / w < i.span / w + 1 := by
        have hdiv : (j - i.lo) / w ≤ i.span / w := by
          apply Nat.div_le_div_right
          simp only [span]
          omega
        omega
      have hone := List.count_range (a := (j - i.lo) / w) (n := i.span / w + 1)
      rw [if_pos hlt, List.count] at hone
      refine Eq.trans (List.countP_congr ?_) hone
      intro c _
      rw [Bool.true_and, decide_eq_true_eq, beq_iff_eq]
      exact eq_comm

theorem Interval.width_pos (i : Interval) : 0 < i.width := by
  simp only [width, maxIndex_eq]
  omega

/-- Choosing one extent of each axis in all ways gives products that hold each
tuple once, if the extents of each axis hold each index once. -/
theorem Extent.countP_firstFastest {axes : List (List Extent)} {es : List Extent}
    (h : List.Forall₂ (fun axis e => ∀ j,
      axis.countP (fun x : Extent => x.contains j) = (e.contains j).toNat) axes es)
    (tuple : List ℕ) :
    (Tuple.firstFastest axes).countP (Extent.hold · tuple) =
      (Extent.hold es tuple).toNat := by
  induction h generalizing tuple with
  | nil => cases tuple <;> simp [Tuple.firstFastest]
  | @cons axis e axes es haxis _ ih =>
      cases tuple with
      | nil =>
          rw [Extent.hold_cons_nil, Bool.toNat_false, List.countP_eq_zero]
          intro part hpart
          cases Tuple.mem_firstFastest.mp hpart with
          | cons _ _ => exact Bool.false_ne_true
      | cons j tuple =>
          have hinner : ∀ rest : List Extent,
              (axis.map (· :: rest)).countP (Extent.hold · (j :: tuple)) =
                (e.contains j).toNat * (Extent.hold rest tuple).toNat := by
            intro rest
            rw [← haxis j, List.countP_map]
            cases hrest : Extent.hold rest tuple <;>
              simp [Function.comp_def, hrest]
          have houter : ∀ tuples : List (List Extent),
              (tuples.flatMap fun rest => axis.map (· :: rest)).countP
                  (Extent.hold · (j :: tuple)) =
                (e.contains j).toNat * tuples.countP (Extent.hold · tuple) := by
            intro tuples
            induction tuples with
            | nil => simp
            | cons rest tuples ihtuples =>
                rw [List.flatMap_cons, List.countP_append, hinner, ihtuples,
                  List.countP_cons]
                cases hrest : Extent.hold rest tuple <;> simp [Nat.mul_add, Nat.add_comm]
          rw [Tuple.firstFastest, houter, ih, Extent.hold_cons_cons]
          cases e.contains j <;> simp

/-- The tiles of an extent in the width of another one. -/
def Extent.tilesOf (e u : Extent) : List Extent :=
  (e.tiles u.width).map fun i => { i with dim := e.dim }

namespace Box

theorem tileAxes_eq_map (region unit : Box α) :
    tileAxes region unit =
      (region.extents.zip unit.extents).map fun p => p.1.tilesOf p.2 :=
  List.map_uncurry_zip_eq_zipWith.symm

/-- One extent of each axis of tiles is a tile for each pair of an extent of the
region and one of the unit. -/
theorem forall₂_of_mem_tileAxes {region unit : Box α} {part : List Extent}
    (hpart : part ∈ Tuple.firstFastest (tileAxes region unit)) :
    List.Forall₂ (fun (p : Extent × Extent) x =>
        ∃ c, x = ({ p.1.tile p.2.width c with dim := p.1.dim } : Extent))
      (region.extents.zip unit.extents) part := by
  rw [Tuple.mem_firstFastest, tileAxes_eq_map, List.forall₂_map_left_iff] at hpart
  refine hpart.imp fun p x hx => ?_
  obtain ⟨i, hi, rfl⟩ := List.mem_map.mp hx
  obtain ⟨c, -, rfl⟩ := List.mem_map.mp hi
  exact ⟨c, rfl⟩

theorem dim_of_mem_tileAxes {region unit : Box α} {part : List Extent}
    (hlen : region.extents.length = unit.extents.length)
    (hpart : part ∈ Tuple.firstFastest (tileAxes region unit)) :
    part.map (·.dim) = region.dimensions := by
  have hpairs : List.Forall₂ (fun (p : Extent × Extent) x => p.1.dim = x.dim)
      (region.extents.zip unit.extents) part := by
    refine (forall₂_of_mem_tileAxes hpart).imp fun p x hx => ?_
    obtain ⟨c, rfl⟩ := hx
    rfl
  have hdims : ((region.extents.zip unit.extents).map Prod.fst).map (·.dim) =
      part.map (·.dim) := by
    rw [List.map_map, ← List.forall₂_eq_eq_eq, List.forall₂_map_left_iff,
      List.forall₂_map_right_iff]
    exact hpairs
  rw [← hdims, List.map_fst_zip hlen.le, dimensions]

theorem forall₂_countP_tileAxes {region unit : Box α}
    (hlen : region.extents.length = unit.extents.length) :
    List.Forall₂ (fun axis e => ∀ j,
        axis.countP (fun x : Extent => x.contains j) = (e.contains j).toNat)
      (tileAxes region unit) region.extents := by
  have hpairs : List.Forall₂ (fun axis e => ∀ j,
        axis.countP (fun x : Extent => x.contains j) = (e.contains j).toNat)
      (tileAxes region unit) ((region.extents.zip unit.extents).map Prod.fst) := by
    rw [tileAxes_eq_map, List.forall₂_map_left_iff, List.forall₂_map_right_iff,
      List.forall₂_same]
    intro p _ j
    rw [Extent.tilesOf, List.countP_map]
    exact p.1.countP_tiles p.2.width_pos j
  rwa [List.map_fst_zip hlen.le] at hpairs

/-- Dimensions go up strictly if each is below the next. -/
theorem increasing_eq_true_iff {es : List Extent} :
    increasing es = true ↔ (es.map (·.dim)).Pairwise (· < ·) := by
  rw [← List.isChain_iff_pairwise]
  induction es with
  | nil => simp [increasing]
  | cons e es ih =>
      cases es with
      | nil => simp [increasing]
      | cons f rest => simp [increasing, ih]

theorem increasing_of_dimensions {b : Box α} {n : ℕ}
    (h : b.dimensions = List.range n) : increasing b.extents = true := by
  rw [increasing_eq_true_iff, ← dimensions, h]
  exact List.pairwise_lt_range

theorem mapM_ofExtents?_eq_some_iff {parts : List (List Extent)}
    {boxes : List (Box α)} :
    parts.mapM ofExtents? = some boxes ↔
      (∀ part ∈ parts, increasing part = true) ∧ parts.map flat = boxes := by
  induction parts generalizing boxes with
  | nil => simp
  | cons part parts ih =>
      simp only [List.mapM_cons, Option.bind_eq_bind, Option.bind_eq_some_iff, ih,
        Option.pure_def, Option.some.injEq, List.forall_mem_cons, List.map_cons]
      constructor
      · rintro ⟨b, hb, _, ⟨hparts, rfl⟩, rfl⟩
        unfold ofExtents? at hb
        split at hb
        · rename_i hpart
          obtain rfl := Option.some.inj hb
          exact ⟨⟨hpart, hparts⟩, rfl⟩
        · cases hb
      · rintro ⟨⟨hpart, hparts⟩, rfl⟩
        exact ⟨flat part, if_pos hpart, _, ⟨hparts, rfl⟩, rfl⟩

variable {region unit : Box α} {tiles : List (Box α)}

theorem tiles?_eq_some (h : region.tiles? unit = some tiles) :
    region.extents.length = unit.extents.length ∧
      tiles = (Tuple.firstFastest (tileAxes region unit)).map flat := by
  unfold tiles? at h
  split at h
  · rename_i hdims
    exact ⟨beq_iff_eq.mp hdims, (mapM_ofExtents?_eq_some_iff.mp h).2.symm⟩
  · cases h

/-- A region whose dimensions go up strictly is tiled by every unit with as
many extents. -/
theorem exists_tiles? (hregion : increasing region.extents = true)
    (hlen : region.extents.length = unit.extents.length) :
    ∃ tiles, region.tiles? unit = some tiles := by
  have hdims : (region.dims == unit.dims) = true := beq_iff_eq.mpr hlen
  refine ⟨(Tuple.firstFastest (tileAxes region unit)).map flat, ?_⟩
  rw [tiles?, if_pos hdims, mapM_ofExtents?_eq_some_iff]
  refine ⟨fun part hpart => ?_, rfl⟩
  rw [increasing_eq_true_iff] at hregion ⊢
  rwa [dim_of_mem_tileAxes hlen hpart]

theorem dimensions_tiles? (h : region.tiles? unit = some tiles) {tile : Box α}
    (htile : tile ∈ tiles) : tile.dimensions = region.dimensions := by
  obtain ⟨hlen, rfl⟩ := tiles?_eq_some h
  obtain ⟨part, hpart, rfl⟩ := List.mem_map.mp htile
  exact dim_of_mem_tileAxes hlen hpart

/-- The tiles of a region hold each tuple of the region once. -/
theorem holders_tiles? (h : region.tiles? unit = some tiles) (tuple : List ℕ) :
    holders tiles tuple = (region.contains tuple).toNat := by
  obtain ⟨hlen, rfl⟩ := tiles?_eq_some h
  rw [holders_eq_countP, List.map_map, contains_eq_hold]
  simp only [Function.comp_def, flat, List.map_id']
  exact Extent.countP_firstFastest (forall₂_countP_tileAxes hlen) tuple

/-- A region has at least one tile. -/
theorem tiles?_ne_nil (h : region.tiles? unit = some tiles) : tiles ≠ [] := by
  have hone := holders_tiles? h region.lows
  rw [contains_lows, Bool.toNat_true] at hone
  rintro rfl
  cases hone

theorem isWithin_of_mem_tiles? (h : region.tiles? unit = some tiles)
    {tile : Box α} (htile : tile ∈ tiles) : tile.isWithin region = true := by
  rw [isWithin_iff_forall (dimensions_tiles? h htile)]
  intro tuple htuple
  exact eq_true_of_holders (holders_tiles? h tuple) htile htuple

end Box

namespace PiecewiseMap

variable {d : Domain α} {unit : Box α} {degree : Degree} {m : PiecewiseMap α}

theorem uniform?_eq_some_iff :
    uniform? d unit degree = some m ↔
      ∃ whole tiles, Box.universe? d = some whole ∧
        unit.dimensions = List.range d.size ∧ whole.tiles? unit = some tiles ∧
        (ofBoxes d degree tiles).setGridCell (unit.extents.map (·.width)) = m := by
  simp only [uniform?, Option.bind_eq_bind, Option.bind_eq_some_iff]
  constructor
  · rintro ⟨whole, hwhole, h⟩
    split at h
    · rename_i hunit
      obtain ⟨tiles, htiles, h⟩ := Option.bind_eq_some_iff.mp h
      split at h
      · cases h
      · rw [Box.spansFirst, beq_iff_eq, Box.dims_universe hwhole] at hunit
        exact ⟨whole, tiles, hwhole, hunit, htiles, Option.some.inj h⟩
    · cases h
  · rintro ⟨whole, tiles, hwhole, hunit, htiles, rfl⟩
    have hspans : unit.spansFirst whole.dims = true := by
      rw [Box.spansFirst, beq_iff_eq, Box.dims_universe hwhole, hunit]
    refine ⟨whole, hwhole, ?_⟩
    simp [hspans, htiles, Box.tiles?_ne_nil htiles]

/-- A domain with variables is tiled by every unit over all its dimensions. -/
theorem exists_uniform? (hd : d.isEmpty = false)
    (hunit : unit.dimensions = List.range d.size) (degree : Degree) :
    ∃ m, uniform? d unit degree = some m := by
  obtain ⟨whole, hwhole⟩ := Box.exists_universe? hd
  have hdim := Box.dimensions_universe hwhole
  have hlen : whole.extents.length = unit.extents.length := by
    have hlen := congrArg List.length (hdim.trans hunit.symm)
    rwa [Box.dimensions, Box.dimensions, List.length_map, List.length_map] at hlen
  obtain ⟨tiles, htiles⟩ :=
    Box.exists_tiles? (Box.increasing_of_dimensions hdim) hlen
  exact ⟨_, uniform?_eq_some_iff.mpr ⟨whole, tiles, hwhole, hunit, htiles, rfl⟩⟩

theorem uniform?_eq_none_iff :
    uniform? d unit degree = none ↔
      d.isEmpty = true ∨ unit.dimensions ≠ List.range d.size := by
  constructor
  · intro hnone
    by_contra hgood
    rw [not_or, Bool.not_eq_true, not_not] at hgood
    obtain ⟨hd, hunit⟩ := hgood
    obtain ⟨m, hm⟩ := exists_uniform? hd hunit degree
    rw [hm] at hnone
    cases hnone
  · intro hbad
    rw [Option.eq_none_iff_forall_ne_some]
    intro m hm
    obtain ⟨whole, -, hwhole, hunit, -⟩ := uniform?_eq_some_iff.mp hm
    obtain ⟨hd, -⟩ := Box.universe?_eq_some_iff.mp hwhole
    rw [hd] at hbad
    exact hbad.elim Bool.false_ne_true fun hne => hne hunit

/-- The first tiling of a domain partitions it. -/
theorem partitionedBy_uniform? (h : uniform? d unit degree = some m) :
    m.domain = d ∧ d.PartitionedBy m.boxes.toList := by
  obtain ⟨whole, tiles, hwhole, -, htiles, rfl⟩ := uniform?_eq_some_iff.mp h
  refine ⟨rfl, (Box.partitionedBy_iff hwhole).mpr ⟨?_, ?_⟩⟩
  · intro tile htile
    rw [Box.dimensions_tiles? htiles htile, Box.dimensions_universe hwhole]
  · exact Box.holders_tiles? htiles

end PiecewiseMap

end IntervalProgramming
