import IntervalProgramming.Proofs.Layout.Partition

/-!
# The place of each tile

The tiles of a region are all ways to choose one tile along each dimension, so
their number is a product and the coordinates of a tile give its position.
Widths are held in index words, where the width of an extent of all indices is
one short, but no dimension of a domain is that long.  So the regular tiling of
a domain has the tiles of exact widths, each at the place of its coordinates.
-/

namespace IntervalProgramming

variable {α : Type} [Scalar α]

/-! ## Positions in a product of lists -/

theorem getElem?_flatMap_of_length {β γ : Type} {f : β → List γ} {n c : ℕ}
    (hf : ∀ x, (f x).length = n) (hc : c < n) (xs : List β) (i : ℕ) :
    (xs.flatMap f)[c + n * i]? = xs[i]?.bind fun x => (f x)[c]? := by
  induction xs generalizing i with
  | nil => simp
  | cons x xs ih =>
      rw [List.flatMap_cons]
      by_cases hi : i = 0
      · subst hi
        have hin : c < (f x).length := by
          rwa [hf]
        rw [Nat.mul_zero, Nat.add_zero, List.getElem?_append_left hin]
        rfl
      · obtain ⟨j, rfl⟩ := Nat.exists_eq_succ_of_ne_zero hi
        have hpast : (f x).length ≤ c + n * (j + 1) := by
          rw [hf, Nat.mul_succ]
          omega
        have hpos : c + n * (j + 1) - n = c + n * j := by
          rw [Nat.mul_succ]
          omega
        rw [List.getElem?_append_right hpast, hf, hpos, ih]
        rfl

/-- The tuple at the position of coordinates picks, along each axis, the entry
at the coordinate. -/
theorem Tuple.exists_getElem?_firstFastest {β : Type} {axes : List (List β)}
    {coords : List ℕ} (h : List.Forall₂ (· < ·) coords (axes.map List.length)) :
    ∃ tuple,
      (firstFastest axes)[Grid.flatten (axes.map List.length) coords]? = some tuple ∧
      ∀ (k : ℕ) (axis : List β) (c : ℕ),
        axes[k]? = some axis → coords[k]? = some c →
        ∃ hc : c < axis.length, tuple[k]? = some axis[c] := by
  induction axes generalizing coords with
  | nil =>
      rw [List.map_nil, List.forall₂_nil_right_iff] at h
      subst h
      exact ⟨[], rfl, by simp⟩
  | cons axis axes ih =>
      rw [List.map_cons, List.forall₂_cons_right_iff] at h
      obtain ⟨c, coords, hc, hcoords, rfl⟩ := h
      obtain ⟨tuple, htuple, hentry⟩ := ih hcoords
      have hinner : ∀ rest : List β, (axis.map (· :: rest)).length = axis.length :=
        fun _ => List.length_map _
      refine ⟨axis[c] :: tuple, ?_, ?_⟩
      · rw [firstFastest, List.map_cons, Grid.flatten,
          getElem?_flatMap_of_length hinner hc, htuple, Option.bind_some,
          List.getElem?_map, List.getElem?_eq_getElem hc, Option.map_some]
      · intro k axis' c' haxis hc'
        by_cases hk : k = 0
        · subst hk
          obtain rfl := Option.some.inj haxis
          obtain rfl := Option.some.inj hc'
          exact ⟨hc, rfl⟩
        · obtain ⟨j, rfl⟩ := Nat.exists_eq_succ_of_ne_zero hk
          exact hentry j axis' c' haxis hc'

/-! ## The tiles of an interval -/

theorem ceilDiv_succ (n : ℕ) {w : ℕ} (hw : 0 < w) :
    ceilDiv (n + 1) w = n / w + 1 := by
  have hsum : n + 1 + w - 1 = n + w := by omega
  rw [ceilDiv, hsum, Nat.add_div_right n hw]

namespace Interval

theorem length_tiles (i : Interval) (w : ℕ) :
    (i.tiles w).length = i.span / w + 1 := by
  rw [tiles, List.length_map, List.length_range]

theorem lo_tile {i : Interval} {w c : ℕ} (hw : 0 < w) (hc : c ≤ i.span / w) :
    (i.tile w c).lo = i.lo + c * w := by
  have hle := i.le
  have hstart : c * w ≤ i.span := (Nat.le_div_iff_mul_le hw).mp hc
  simp only [span] at hstart
  simp only [tile]
  omega

theorem hi_tile {i : Interval} {w c : ℕ} (hw : 0 < w) (hc : c ≤ i.span / w) :
    (i.tile w c).hi = min (i.lo + c * w + (w - 1)) i.hi := by
  rw [← lo_tile hw hc]
  rfl

/-- Each tile but the last one ends right before the next one. -/
theorem hi_tile_of_lt {i : Interval} {w c : ℕ} (hw : 0 < w) (hc : c < i.span / w) :
    (i.tile w c).hi + 1 = i.lo + (c + 1) * w ∧ (i.tile w c).hi < i.hi := by
  have hle := i.le
  have hnext : (c + 1) * w ≤ i.span := (Nat.le_div_iff_mul_le hw).mp hc
  rw [hi_tile hw hc.le]
  simp only [span] at hnext
  rw [Nat.succ_mul] at hnext ⊢
  omega

theorem hi_tile_last (i : Interval) {w : ℕ} (hw : 0 < w) :
    (i.tile w (i.span / w)).hi = i.hi := by
  have hle := i.le
  have hend : i.span < (i.span / w + 1) * w :=
    (Nat.div_lt_iff_lt_mul hw).mp (Nat.lt_succ_self _)
  rw [hi_tile hw le_rfl]
  rw [Nat.succ_mul] at hend
  generalize i.span / w * w = start at hend ⊢
  simp only [span] at hend
  omega

theorem width_of_lt {u : Interval} (h : u.span < maxIndex) : u.width = u.span + 1 :=
  Nat.min_eq_left h

theorem width_of_le {u : Interval} (h : maxIndex ≤ u.span) : u.width = maxIndex :=
  Nat.min_eq_right (Nat.le_succ_of_le h)

/-- Unless an interval and a unit both have all indices, the interval has as
many tiles as the exact width of the unit asks for. -/
theorem span_div_width {i u : Interval} (h : i.span < maxIndex ∨ u.span < maxIndex) :
    i.span / u.width = i.span / (u.span + 1) := by
  by_cases hu : u.span < maxIndex
  · rw [width_of_lt hu]
  · have hi : i.span < maxIndex := h.resolve_right hu
    rw [Nat.not_lt] at hu
    rw [width_of_le hu, Nat.div_eq_of_lt hi, Nat.div_eq_of_lt (by omega)]

/-- Unless both have all indices, the tiles of an interval have the exact width
of the unit, cut off at the end of the interval. -/
theorem bounds_tile {i u : Interval} (h : i.span < maxIndex ∨ u.span < maxIndex)
    {c : ℕ} (hc : c ≤ i.span / u.width) :
    (i.tile u.width c).lo = i.lo + c * (u.span + 1) ∧
      (i.tile u.width c).hi + 1 = i.lo + min ((c + 1) * (u.span + 1)) (i.span + 1) := by
  have hle := i.le
  have hspan : i.lo + i.span = i.hi := by
    simp only [span]
    omega
  have hlo := lo_tile u.width_pos hc
  have hhi := hi_tile u.width_pos hc
  by_cases hu : u.span < maxIndex
  · rw [width_of_lt hu] at hlo hhi ⊢
    rw [Nat.succ_mul]
    generalize c * (u.span + 1) = start at hlo hhi ⊢
    omega
  · have hi : i.span < maxIndex := h.resolve_right hu
    rw [Nat.not_lt] at hu
    rw [width_of_le hu] at hc hlo hhi ⊢
    rw [Nat.div_eq_of_lt hi, Nat.le_zero] at hc
    subst hc
    rw [Nat.zero_mul] at hlo hhi ⊢
    rw [Nat.zero_add, Nat.one_mul]
    omega

end Interval

theorem Extent.length_tilesOf (e u : Extent) :
    (e.tilesOf u).length = e.span / u.width + 1 := by
  rw [tilesOf, List.length_map, Interval.length_tiles]

/-! ## The tiles of a region -/

namespace Box

variable {region unit : Box α} {tiles : List (Box α)}

/-- How many tiles are laid along each dimension of a region. -/
def axisCounts (region unit : Box α) : List ℕ :=
  List.zipWith (fun e u => e.span / u.width + 1) region.extents unit.extents

theorem map_length_tileAxes (region unit : Box α) :
    (tileAxes region unit).map List.length = region.axisCounts unit := by
  rw [tileAxes_eq_map, List.map_map, axisCounts, ← List.map_uncurry_zip_eq_zipWith]
  exact List.map_congr_left fun p _ => p.1.length_tilesOf p.2

theorem length_tiles? (h : region.tiles? unit = some tiles) :
    tiles.length = (region.axisCounts unit).prod := by
  obtain ⟨-, rfl⟩ := tiles?_eq_some h
  rw [List.length_map, Tuple.length_firstFastest, map_length_tileAxes]

/-- The tile at the position of coordinates has, along each dimension, the tile
of the region's extent at the coordinate. -/
theorem exists_getElem?_tiles? (h : region.tiles? unit = some tiles) {coords : List ℕ}
    (hcoords : List.Forall₂ (· < ·) coords (region.axisCounts unit)) :
    ∃ extents,
      tiles[Grid.flatten (region.axisCounts unit) coords]? = some (flat extents) ∧
      ∀ (k : ℕ) (e u : Extent) (c : ℕ), region.extents[k]? = some e →
        unit.extents[k]? = some u → coords[k]? = some c →
        c ≤ e.span / u.width ∧
          extents[k]? = some { e.tile u.width c with dim := e.dim } := by
  obtain ⟨-, rfl⟩ := tiles?_eq_some h
  rw [← map_length_tileAxes] at hcoords ⊢
  obtain ⟨extents, hextents, hentry⟩ := Tuple.exists_getElem?_firstFastest hcoords
  refine ⟨extents, by rw [List.getElem?_map, hextents, Option.map_some], ?_⟩
  intro k e u c he hu hc
  have haxis : (tileAxes region unit)[k]? = some (e.tilesOf u) := by
    rw [tileAxes, List.getElem?_zipWith, he, hu]
    rfl
  obtain ⟨hlt, hget⟩ := hentry k _ c haxis hc
  rw [Extent.length_tilesOf, Nat.lt_succ_iff] at hlt
  rw [hget]
  exact ⟨hlt, by simp [Extent.tilesOf, Interval.tiles]⟩

end Box

/-! ## The tiles of a domain -/

namespace ValueRange

/-- The interval of all indices of a value range. -/
def indices (r : ValueRange α) : Interval where
  lo := 0
  hi := r.lastIndex
  le := Nat.zero_le _

theorem span_indices_succ (r : ValueRange α) : r.indices.span + 1 = r.count :=
  Nat.sub_add_cancel r.count_pos

theorem span_indices_lt (r : ValueRange α) : r.indices.span < maxIndex :=
  Nat.lt_of_lt_of_le (Nat.lt_of_succ_le r.span_indices_succ.le) r.count_le_maxIndex

end ValueRange

theorem Box.getElem?_extents_universe {d : Domain α} {whole : Box α}
    (h : universe? d = some whole) (k : ℕ) :
    whole.extents[k]? =
      d.vars[k]?.map fun v => ({ v.indices with dim := k } : Extent) := by
  obtain ⟨-, rfl⟩ := universe?_eq_some_iff.mp h
  simp [ofIntervals, flat, Function.comp_def, ValueRange.indices]

namespace Domain

/-- How many tiles in the widths of a unit box cover each dimension. -/
def tileCounts (d : Domain α) (unit : Box α) : List ℕ :=
  List.zipWith (fun n u => ceilDiv n (u.span + 1)) d.counts unit.extents

/-- A box is the tile of a domain at the given coordinates: along each
dimension it starts as many widths of the unit from the low end as its
coordinate says, and ends one width on or where the dimension ends. -/
structure IsTile (d : Domain α) (unit : Box α) (coords : List ℕ)
    (b : Box α) : Prop where
  dimensions : b.dimensions = List.range d.size
  isFlat : b = Box.flat b.extents
  bounds : ∀ (k n c : ℕ) (u : Extent), d.counts[k]? = some n →
    unit.extents[k]? = some u → coords[k]? = some c →
    ∃ e, b.extents[k]? = some e ∧ e.lo = c * (u.span + 1) ∧
      e.hi + 1 = min ((c + 1) * (u.span + 1)) n

/-- No dimension of a domain has all indices, so its tiles are those of exact
widths. -/
theorem axisCounts_universe {d : Domain α} {whole : Box α}
    (h : Box.universe? d = some whole) (unit : Box α) :
    whole.axisCounts unit = d.tileCounts unit := by
  apply List.ext_getElem?
  intro k
  rw [Box.axisCounts, tileCounts, List.getElem?_zipWith, List.getElem?_zipWith,
    Box.getElem?_extents_universe h, counts, List.getElem?_map]
  cases d.vars[k]? with
  | none => rfl
  | some v =>
      cases unit.extents[k]? with
      | none => rfl
      | some u =>
          simp only [Option.map_some, Option.some.injEq]
          rw [Interval.span_div_width (Or.inl v.span_indices_lt),
            ← ceilDiv_succ _ (Nat.succ_pos u.span), v.span_indices_succ]

theorem exists_isTile {d : Domain α} {whole unit : Box α} {tiles : List (Box α)}
    (hwhole : Box.universe? d = some whole) (h : whole.tiles? unit = some tiles)
    {coords : List ℕ} (hcoords : List.Forall₂ (· < ·) coords (d.tileCounts unit)) :
    ∃ b, tiles[Grid.flatten (d.tileCounts unit) coords]? = some b ∧
      d.IsTile unit coords b := by
  rw [← axisCounts_universe hwhole] at hcoords ⊢
  obtain ⟨extents, hget, hbounds⟩ := Box.exists_getElem?_tiles? h hcoords
  refine ⟨Box.flat extents, hget, ?_, rfl, ?_⟩
  · rw [Box.dimensions_tiles? h (List.mem_of_getElem? hget),
      Box.dimensions_universe hwhole]
  · intro k n c u hn hu hc
    rw [counts, List.getElem?_map, Option.map_eq_some_iff] at hn
    obtain ⟨v, hv, rfl⟩ := hn
    have he := Box.getElem?_extents_universe hwhole k
    rw [hv, Option.map_some] at he
    obtain ⟨hle, hextent⟩ := hbounds k _ u c he hu hc
    obtain ⟨hlo, hhi⟩ := Interval.bounds_tile (Or.inl v.span_indices_lt) hle
    rw [v.span_indices_succ] at hhi
    exact ⟨_, hextent, hlo.trans (Nat.zero_add _), hhi.trans (Nat.zero_add _)⟩

end Domain

end IntervalProgramming
