import IntervalProgramming.Proofs.Box.Difference
import IntervalProgramming.Proofs.Layout.Numbering
import IntervalProgramming.Proofs.Tuple.Counter

/-!
# Tiles by a scan

The tiles of a region are laid in words.  The tiles along each extent are found one
after the other in index words, and a counter of tile numbers in count words goes
through their combinations, the first dimension turned on first.  No bound of a tile
leaves its word or stops early, so a scan finds the tiles of the width it is given,
and the counter lists them as a regular tiling does.
-/

namespace IntervalProgramming

variable {α : Type} [Scalar α]

/-! ## The tiles of an interval in index words -/

/-- The index `k` places after another one, as far as an index word holds it. -/
def indexAdd (j k : ℕ) : ℕ :=
  min (j + k) maxIndex

/-- The bounds of the tiles of width `w` from index `lo` on, up to index `hi`,
found one after the other in index words. -/
def scanTiles (w hi lo : ℕ) : List (ℕ × ℕ) :=
  let last := min (indexAdd lo (w - 1)) hi
  if _h : lo ≤ last ∧ last < hi then (lo, last) :: scanTiles w hi (last + 1)
  else [(lo, last)]
termination_by hi - lo

namespace Interval

/-- A scan that has come to tile `c` goes on with the tiles from there. -/
theorem scanTiles_from {i : Interval} (hword : i.hi ≤ maxIndex) {w : ℕ} (hw : 0 < w)
    {c n : ℕ} (hcn : c + n = i.span / w) :
    scanTiles w i.hi (i.lo + c * w) =
      (List.range' c (n + 1)).map fun c => ((i.tile w c).lo, (i.tile w c).hi) := by
  induction n generalizing c with
  | zero =>
      obtain rfl : c = i.span / w := hcn
      have hend : min (indexAdd (i.lo + i.span / w * w) (w - 1)) i.hi = i.hi := by
        have hlast := hi_tile_last i hw
        rw [hi_tile hw le_rfl] at hlast
        rw [indexAdd]
        omega
      rw [scanTiles, hend, dif_neg (by omega), List.range'_one, List.map_singleton,
        lo_tile hw le_rfl, hi_tile_last i hw]
  | succ n ih =>
      have hc : c < i.span / w := by omega
      obtain ⟨hnext, hlt⟩ := hi_tile_of_lt hw hc
      have hlast : min (indexAdd (i.lo + c * w) (w - 1)) i.hi = (i.tile w c).hi := by
        rw [hi_tile hw hc.le, indexAdd]
        omega
      have hle : i.lo + c * w ≤ (i.tile w c).hi := by
        rw [← lo_tile hw hc.le]
        exact (i.tile w c).le
      rw [List.range'_succ, List.map_cons, lo_tile hw hc.le, scanTiles, hlast,
        dif_pos ⟨hle, hlt⟩, hnext, ih (by omega)]

/-- A scan in index words finds the tiles of an interval. -/
theorem scanTiles_eq {i : Interval} (hword : i.hi ≤ maxIndex) {w : ℕ} (hw : 0 < w) :
    scanTiles w i.hi i.lo = (i.tiles w).map fun t => (t.lo, t.hi) := by
  have hscan := scanTiles_from hword hw (Nat.zero_add (i.span / w))
  rw [Nat.zero_mul, Nat.add_zero] at hscan
  rw [hscan, tiles, List.map_map, List.range_eq_range']
  rfl

end Interval

/-! ## Products along maps -/

namespace Tuple

variable {ι β γ : Type}

theorem firstFastest_map (f : β → γ) (axes : List (List β)) :
    firstFastest (axes.map (List.map f)) = (firstFastest axes).map (List.map f) := by
  induction axes with
  | nil => rfl
  | cons axis axes ih =>
      simp only [List.map_cons, firstFastest, ih, List.map_flatMap, List.flatMap_map,
        List.map_map]
      rfl

/-- Each axis may be mapped in its own way. -/
theorem firstFastest_zipWith_map (g : ι → β → γ) {labels : List ι}
    {axes : List (List β)} (hlen : labels.length = axes.length) :
    firstFastest (List.zipWith (fun i axis => axis.map (g i)) labels axes) =
      (firstFastest axes).map (List.zipWith g labels) := by
  induction axes generalizing labels with
  | nil =>
      obtain rfl := List.length_eq_zero_iff.mp hlen
      rfl
  | cons axis axes ih =>
      obtain ⟨i, labels, rfl⟩ := List.exists_cons_of_length_eq_add_one hlen
      simp only [List.zipWith_cons_cons, firstFastest, ih (Nat.succ.inj hlen),
        List.map_flatMap, List.flatMap_map, List.map_map]
      rfl

/-- The entries at all coordinates make up the product. -/
theorem map_getD_firstFastest (default : β) (axes : List (List β)) :
    (firstFastest (axes.map fun axis => List.range axis.length)).map
        (List.zipWith (fun axis c => axis.getD c default) axes) =
      firstFastest axes := by
  have hall : ∀ axis : List β,
      (List.range axis.length).map (fun c => axis.getD c default) = axis := by
    intro axis
    apply List.ext_getElem
    · simp
    · intro k _ hk
      simp [hk]
  rw [← firstFastest_zipWith_map _ (by rw [List.length_map]), List.zipWith_map_right,
    List.zipWith_self]
  simp only [hall, List.map_id']

end Tuple

/-! ## The tiles of a region in words -/

namespace Box

variable {region unit : Box α}

/-- The bounds of the tiles along each extent of a region, found by scans. -/
def scanAxes (region unit : Box α) : List (List (ℕ × ℕ)) :=
  List.zipWith (fun e u => scanTiles u.width e.hi e.lo) region.extents unit.extents

/-- The box of the tile at coordinates, its bounds taken from those along each
extent. -/
def tileAt? (region : Box α) (axes : List (List (ℕ × ℕ))) (coords : List ℕ) :
    Option (Box α) :=
  ofBounds? (List.zipWith (fun e bounds => (e.dim, bounds)) region.extents
    (List.zipWith (fun axis c => axis.getD c (0, 0)) axes coords))

/-- The tiles of a region in words; `none` if a number leaves its word.  The inner
option is `none` if there is no tiling.  The number of all tiles is computed before
they are laid. -/
def tilesInWords? (region unit : Box α) : Option (Option (List (Box α))) :=
  if region.dims == unit.dims then do
    let axes := scanAxes region unit
    let places := axes.map fun axis => Place.belowCount axis.length
    let _ ← (axes.map List.length).foldlM (fun n factor => countWord? (n * factor)) 1
    let coords ← (Counter.ofPlaces places).listFrom? (places.map (·.first))
    return coords.mapM (region.tileAt? axes)
  else some none

theorem scanAxes_eq (hregion : region.InWords) (unit : Box α) :
    scanAxes region unit =
      (tileAxes region unit).map (List.map fun e => (e.lo, e.hi)) := by
  have hwords : ∀ e ∈ region.extents, e.hi ≤ maxIndex := fun e he => (hregion e he).2
  rw [scanAxes, tileAxes]
  generalize region.extents = es at hwords ⊢
  generalize unit.extents = us
  induction es generalizing us with
  | nil => rfl
  | cons e es ih =>
      cases us with
      | nil => rfl
      | cons u us =>
          obtain ⟨he, hes⟩ := List.forall_mem_cons.mp hwords
          rw [List.zipWith_cons_cons, List.zipWith_cons_cons, List.map_cons, ih hes,
            Interval.scanTiles_eq he u.width_pos, List.map_map]
          rfl

theorem one_le_of_mem_axisCounts {n : ℕ} (h : n ∈ region.axisCounts unit) : 1 ≤ n := by
  rw [axisCounts, ← List.map_uncurry_zip_eq_zipWith] at h
  obtain ⟨p, -, rfl⟩ := List.mem_map.mp h
  exact Nat.le_add_left 1 _

theorem map_length_scanAxes (hregion : region.InWords) (unit : Box α) :
    (scanAxes region unit).map List.length = region.axisCounts unit := by
  rw [scanAxes_eq hregion, List.map_map, ← map_length_tileAxes]
  exact List.map_congr_left fun axis _ => List.length_map _

/-- The bounds of the tiles along each extent, with its dimension. -/
theorem zipWith_dim_bounds (es us : List Extent) :
    List.zipWith (fun e axis => axis.map fun bounds => (e.dim, bounds)) es
        ((List.zipWith Extent.tilesOf es us).map (List.map fun e => (e.lo, e.hi))) =
      (List.zipWith Extent.tilesOf es us).map (List.map fun e => (e.dim, e.lo, e.hi)) := by
  induction es generalizing us with
  | nil => rfl
  | cons e es ih =>
      cases us with
      | nil => rfl
      | cons u us =>
          simp only [List.zipWith_cons_cons, List.map_cons, List.map_map, ih,
            Extent.tilesOf]
          rfl

/-- The tile at each tuple of coordinates is the box of one choice of tiles along
the extents. -/
theorem mapM_tileAt? (hregion : region.InWords)
    (hdims : region.extents.length = unit.extents.length) :
    (Tuple.firstFastest ((scanAxes region unit).map fun axis =>
        List.range axis.length)).mapM (region.tileAt? (scanAxes region unit)) =
      (Tuple.firstFastest (tileAxes region unit)).mapM (ofExtents? : _ → Option (Box α)) := by
  set axes := scanAxes region unit with haxes
  have hlen : region.extents.length = axes.length := by
    rw [haxes, scanAxes, List.length_zipWith, ← hdims, Nat.min_self]
  have hlabelled : List.zipWith (fun e axis => axis.map fun bounds => (e.dim, bounds))
      region.extents axes =
        (tileAxes region unit).map (List.map fun e => (e.dim, e.lo, e.hi)) := by
    rw [haxes, scanAxes_eq hregion, tileAxes]
    exact zipWith_dim_bounds region.extents unit.extents
  have hbounds := congrArg Tuple.firstFastest hlabelled
  rw [Tuple.firstFastest_zipWith_map (fun (e : Extent) (bounds : ℕ × ℕ) => (e.dim, bounds))
      hlen, Tuple.firstFastest_map, ← Tuple.map_getD_firstFastest (0, 0) axes,
    List.map_map] at hbounds
  have htiles := congrArg (List.mapM (ofBounds? : _ → Option (Box α))) hbounds
  rw [List.mapM_map, List.mapM_map] at htiles
  rw [← funext ofBounds?_bounds]
  exact htiles

/-- The tiles of a region are laid in words as long as their number is a word. -/
theorem tilesInWords?_eq (hregion : region.InWords)
    (hcount : (region.axisCounts unit).prod < countLimit) :
    region.tilesInWords? unit = some (region.tiles? unit) := by
  unfold tilesInWords? tiles?
  split
  · rename_i hdims
    have hdims' : region.extents.length = unit.extents.length := beq_iff_eq.mp hdims
    have hlengths := map_length_scanAxes hregion unit
    have hpos : ∀ n ∈ region.axisCounts unit, 1 ≤ n := fun _ => one_le_of_mem_axisCounts
    have hproduct : (region.axisCounts unit).foldlM
        (fun n factor => countWord? (n * factor)) 1 = some (region.axisCounts unit).prod := by
      rw [foldlM_countWord? (by decide) hpos, Nat.one_mul, countWord?_of_lt hcount]
    have hlists : List.Forall₂ Place.Lists
        ((scanAxes region unit).map fun axis => Place.belowCount axis.length)
        ((scanAxes region unit).map fun axis => List.range axis.length) := by
      rw [List.forall₂_map_left_iff, List.forall₂_map_right_iff, List.forall₂_same]
      intro axis haxis
      have hmem : axis.length ∈ region.axisCounts unit :=
        hlengths ▸ List.mem_map_of_mem haxis
      exact Place.lists_belowCount (hpos _ hmem)
        ((List.single_le_prod hpos _ hmem).trans_lt hcount)
    have hcoords := Counter.listFrom?_ofPlaces hlists
    simp only [hlengths, hproduct, hcoords, Option.bind_eq_bind, Option.bind_some,
      Option.pure_def, mapM_tileAt? hregion hdims']
  · rfl

end Box

/-! ## The regular tiling of a domain -/

theorem Box.inWords_universe {d : Domain α} {whole : Box α}
    (h : universe? d = some whole) : whole.InWords := by
  intro e he
  obtain ⟨k, hk⟩ := List.mem_iff_getElem?.mp he
  rw [getElem?_extents_universe h, Option.map_eq_some_iff] at hk
  obtain ⟨v, -, rfl⟩ := hk
  have hlt := v.span_indices_lt
  exact ⟨Nat.zero_le _, hlt.le⟩

namespace PiecewiseMap

/-- The regular tiling of a domain has a tile for each tuple of coordinates, at
the position of the coordinates with the first one running fastest.  It fails
only without variables or for a unit over other dimensions.  As long as the number
of tiles is a word, they are the tiles that are laid in words. -/
theorem uniform_lists_tiles (d : Domain α) (unit : Box α) (degree : Degree) :
    (uniform? d unit degree = none ↔
      d.isEmpty = true ∨ unit.dimensions ≠ List.range d.size) ∧
    ∀ m, uniform? d unit degree = some m →
      m.Partitions d ∧
      m.size = (d.tileCounts unit).prod ∧
      (∀ coords, List.Forall₂ (· < ·) coords (d.tileCounts unit) →
        ∃ b, m.boxes[Grid.flatten (d.tileCounts unit) coords]? = some b ∧
          d.IsTile unit coords b) ∧
      (m.size < countLimit → ∃ whole, Box.universe? d = some whole ∧
        whole.tilesInWords? unit = some (some m.boxes.toList)) := by
  refine ⟨uniform?_eq_none_iff, fun m hm => ?_⟩
  obtain ⟨hdomain, hpart⟩ := partitionedBy_uniform? hm
  obtain ⟨whole, tiles, hwhole, -, htiles, rfl⟩ := uniform?_eq_some_iff.mp hm
  have hsize : tiles.length = (d.tileCounts unit).prod := by
    rw [Box.length_tiles? htiles, Domain.axisCounts_universe hwhole]
  refine ⟨⟨hdomain, hpart⟩, hsize, fun coords hcoords => ?_, fun hcount => ?_⟩
  · obtain ⟨b, hb, htile⟩ := Domain.exists_isTile hwhole htiles hcoords
    exact ⟨b, by rw [← hb]; exact List.getElem?_toArray, htile⟩
  · have hword : (whole.axisCounts unit).prod < countLimit := by
      rwa [← Box.length_tiles? htiles]
    refine ⟨whole, hwhole, ?_⟩
    rw [Box.tilesInWords?_eq (Box.inWords_universe hwhole) hword, htiles]
    rfl

/-- The plate in tiles of four columns and two rows: the last of six tiles is cut
off along both dimensions, and the tiles are laid in words. -/
theorem uniform_lists_tiles_plate :
    let unit : Box ℚ := Box.onPlate 0 3 1
    ∃ m, uniform? Domain.plate unit .constant = some m ∧ m.size = 6 ∧
      (∃ b, m.boxes[5]? = some b ∧ Domain.plate.IsTile unit [2, 1] b ∧
        b.extents.map (fun e => (e.lo, e.hi)) = [(8, 9), (2, 2)]) ∧
      ∃ whole, Box.universe? Domain.plate = some whole ∧
        whole.tilesInWords? unit = some (some m.boxes.toList) := by
  intro unit
  have hvars : Domain.plate.isEmpty = false := rfl
  have hdim : unit.dimensions = List.range Domain.plate.size := rfl
  have hcounts : Domain.plate.tileCounts unit = [3, 2] := rfl
  obtain ⟨m, hm⟩ := exists_uniform? hvars hdim .constant
  obtain ⟨-, htiles⟩ := uniform_lists_tiles Domain.plate unit .constant
  obtain ⟨-, hsize, hplace, hwords⟩ := htiles m hm
  rw [hcounts] at hsize hplace
  have hcoords : List.Forall₂ (· < ·) [2, 1] [3, 2] := by decide
  obtain ⟨b, hb, htile⟩ := hplace [2, 1] hcoords
  have hlast : (uniform? Domain.plate unit .constant).bind (fun m => m.boxes[5]?.map
      fun b => b.extents.map fun e => (e.lo, e.hi)) = some [(8, 9), (2, 2)] := by
    decide +kernel
  rw [hm, Option.bind_some, show m.boxes[5]? = some b from hb, Option.map_some,
    Option.some_inj] at hlast
  refine ⟨m, hm, hsize, ⟨b, hb, htile, hlast⟩, hwords ?_⟩
  rw [hsize]
  decide

end PiecewiseMap

end IntervalProgramming
