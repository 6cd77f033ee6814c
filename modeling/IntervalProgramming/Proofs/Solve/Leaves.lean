import Mathlib.Logic.Function.Iterate
import IntervalProgramming.Proofs.Layout.Partition
import IntervalProgramming.Proofs.Solve.Exact

/-!
# Leaf regions

Without pruning a search takes every combination into account, in
lexicographic order.  If each map partitions the domain, the regions of the
combinations are the common refinement of the maps: they partition the domain
too, two tuples lie together in a region exactly if they lie together in every
map, and a region has the sum of the values of the maps.  So how many regions
there are depends neither on the order of the maps nor on their grids.
-/

namespace IntervalProgramming

variable {d : Domain ℚ} {maps levels : List (PiecewiseMap ℚ)}
  {regions : List (Box ℚ)} {positions positions' tuple tuple' : List ℕ}

/-! ## Boxes picked at a tuple -/

namespace PiecewiseMap

variable {m : PiecewiseMap ℚ}

theorem Partitions.isOver (h : m.Partitions d) (hmodelled : m.IsModelled) :
    m.IsOver d :=
  ⟨h.domain, h.isFull, hmodelled⟩

theorem IsDisjoint.position_eq (hdisjoint : m.IsDisjoint) (hfull : m.IsFull)
    {ix jx : ℕ} {b c : Box ℚ} (hb : m.boxes[ix]? = some b)
    (hc : m.boxes[jx]? = some c) (hbt : b.contains tuple = true)
    (hct : c.contains tuple = true) : ix = jx := by
  have hmeet := intersects_of_contains hfull (Array.mem_of_getElem? hb)
    (Array.mem_of_getElem? hc) hbt hct
  rw [← Array.getElem?_toList, List.getElem?_eq_some_iff] at hb hc
  obtain ⟨hix, rfl⟩ := hb
  obtain ⟨hjx, rfl⟩ := hc
  have hclear := List.pairwise_iff_getElem.mp hdisjoint
  rcases Nat.lt_trichotomy ix jx with hlt | heq | hlt
  · rw [hclear ix jx hix hjx hlt] at hmeet
    cases hmeet
  · exact heq
  · rw [Box.intersects_comm, hclear jx ix hjx hix hlt] at hmeet
    cases hmeet

end PiecewiseMap

/-- Without overlaps only one combination holds a tuple. -/
theorem Picks.positions_eq {x y : ℚ} (hfull : ∀ m ∈ levels, m.IsFull)
    (hdisjoint : ∀ m ∈ levels, m.IsDisjoint)
    (h : Picks tuple levels positions x)
    (h' : Picks tuple levels positions' y) : positions = positions' := by
  induction h generalizing positions' y with
  | nil =>
      cases h'
      rfl
  | cons hb hbt _ ih =>
      obtain ⟨hmfull, hfull⟩ := List.forall_mem_cons.mp hfull
      obtain ⟨hmdisjoint, hdisjoint⟩ := List.forall_mem_cons.mp hdisjoint
      cases h' with
      | cons hc hct rest =>
          rw [hmdisjoint.position_eq hmfull hb hc hbt hct, ih hfull hdisjoint rest]

/-- The boxes picked at one tuple hold another one exactly if the two lie
together in every map. -/
theorem Picks.exists_iff_together {x : ℚ} (hparts : ∀ m ∈ levels, m.Partitions d)
    (h : Picks tuple levels positions x) :
    (∃ y, Picks tuple' levels positions y) ↔
      ∀ m ∈ levels, Box.Together m.boxes.toList tuple tuple' := by
  induction h with
  | nil => exact iff_of_true ⟨0, Picks.nil⟩ nofun
  | @cons m levels ix positions b x hb hbt _ ih =>
      obtain ⟨hm, hrest⟩ := List.forall_mem_cons.mp hparts
      have hbm := Array.mem_toList_iff.mpr (Array.mem_of_getElem? hb)
      rw [List.forall_mem_cons, ← hm.boxes.contains_iff_together hbm hbt, ← ih hrest]
      constructor
      · rintro ⟨_, hpicks⟩
        cases hpicks with
        | cons hc hct rest =>
            obtain rfl := Option.some.inj (hb.symm.trans hc)
            exact ⟨hct, _, rest⟩
      · rintro ⟨hct, y, rest⟩
        exact ⟨_, Picks.cons hb hct rest⟩

/-! ## The common refinement -/

/-- Regions that are the common refinement of some maps: they partition the
domain, a region has the sum of the values of the maps, and two tuples lie
together exactly if they do so in every map. -/
structure CommonRefinement (d : Domain ℚ) (maps : List (PiecewiseMap ℚ))
    (regions : List (Box ℚ)) : Prop where
  partition : d.PartitionedBy regions
  value : ∀ region ∈ regions, ∀ tuple, region.contains tuple = true →
    CoveredBy maps tuple ∧ region.eval tuple = valueSum maps tuple
  together : ∀ tuple tuple', d.HasTuple tuple → d.HasTuple tuple' →
    (Box.Together regions tuple tuple' ↔
      ∀ m ∈ maps, Box.Together m.boxes.toList tuple tuple')

namespace CommonRefinement

theorem perm (h : CommonRefinement d levels regions) (hperm : levels.Perm maps) :
    CommonRefinement d maps regions where
  partition := h.partition
  value := by
    intro region hregion tuple htuple
    rw [← CoveredBy.perm hperm, ← valueSum_perm hperm]
    exact h.value region hregion tuple htuple
  together := by
    intro tuple tuple' htuple htuple'
    simp only [h.together tuple tuple' htuple htuple', hperm.mem_iff]

/-- The corner of first indices lies in some region. -/
theorem length_pos (h : CommonRefinement d maps regions) : 1 ≤ regions.length := by
  obtain ⟨region, hregion, -⟩ := h.partition.exists_contains d.hasTuple_corner
  exact List.length_pos_of_mem hregion

end CommonRefinement

/-- Two maps with the same boxes, whatever their grids. -/
structure PiecewiseMap.SamePieces (m m' : PiecewiseMap ℚ) : Prop where
  domain : m'.domain = m.domain
  degree : m'.degree = m.degree
  boxes : m'.boxes = m.boxes

namespace PiecewiseMap.SamePieces

variable {m m' : PiecewiseMap ℚ}

theorem partitions (h : m.SamePieces m') (hm : m.Partitions d) :
    m'.Partitions d := by
  refine ⟨h.domain.trans hm.domain, ?_⟩
  rw [h.boxes]
  exact hm.boxes

theorem isModelled (h : m.SamePieces m') (hm : m.IsModelled) :
    m'.IsModelled := by
  intro b hb
  rw [h.boxes] at hb
  exact hm b hb

/-- What carries over from a map to one with the same boxes carries over from
all maps of a list. -/
theorem forall_mem {maps' : List (PiecewiseMap ℚ)} {p : PiecewiseMap ℚ → Prop}
    (hp : ∀ {m m'}, m.SamePieces m' → p m → p m')
    (hsame : List.Forall₂ SamePieces maps maps') (h : ∀ m ∈ maps, p m) :
    ∀ m ∈ maps', p m := by
  induction hsame with
  | nil => exact nofun
  | cons hm _ ih =>
      rw [List.forall_mem_cons] at h ⊢
      exact ⟨hp hm h.1, ih h.2⟩

end PiecewiseMap.SamePieces

/-- The common refinement of maps with the same boxes has the same extents, in
some order. -/
theorem CommonRefinement.perm_extents {maps' : List (PiecewiseMap ℚ)}
    {regions' : List (Box ℚ)} (h : CommonRefinement d maps regions)
    (h' : CommonRefinement d maps' regions')
    (hsame : List.Forall₂ PiecewiseMap.SamePieces maps maps') :
    (regions.map (·.extents)).Perm (regions'.map (·.extents)) := by
  apply h.partition.perm_extents_of_together h'.partition
  intro tuple tuple' htuple htuple'
  rw [h.together tuple tuple' htuple htuple',
    h'.together tuple tuple' htuple htuple']
  clear h h'
  induction hsame with
  | nil => exact iff_of_true nofun nofun
  | cons hm _ ih => rw [List.forall_mem_cons, List.forall_mem_cons, ih, hm.boxes]

namespace Search

/-- The regions of the combinations of some levels, in lexicographic order. -/
def leafRegions (levels : List (PiecewiseMap ℚ)) : List (Box ℚ) :=
  (combinations levels).map Prod.snd

theorem mem_leafRegions (hlevels : ∀ m ∈ levels, m.IsOver d) {region : Box ℚ} :
    region ∈ leafRegions levels ↔
      ∃ positions, region? levels positions = some region := by
  simp only [leafRegions, List.mem_map, Prod.exists, exists_eq_right,
    mem_combinations hlevels]

/-- Without overlaps at most one combination has a region that holds a
tuple. -/
theorem holders_leafRegions_le_one (hlevels : ∀ m ∈ levels, m.IsOver d)
    (hdisjoint : ∀ m ∈ levels, m.IsDisjoint) (tuple : List ℕ) :
    Box.holders (leafRegions levels) tuple ≤ 1 := by
  rw [Box.holders, leafRegions, List.countP_map, List.countP_eq_length_filter]
  have hsorted := (pairwise_combinations hlevels).filter fun c => c.2.contains tuple
  have hpicks : ∀ c ∈ (combinations levels).filter fun c => c.2.contains tuple,
      Picks tuple levels c.1 (c.2.eval tuple) := by
    intro c hc
    obtain ⟨hc, hct⟩ := List.mem_filter.mp hc
    exact picks_of_region? hlevels ((mem_combinations hlevels).mp hc) hct
  change ((combinations levels).filter fun c => c.2.contains tuple).length ≤ 1
  generalize (combinations levels).filter (fun c => c.2.contains tuple) = holding at *
  rcases holding with _ | ⟨c, _ | ⟨c', rest⟩⟩
  · exact Nat.zero_le 1
  · exact Nat.le_refl 1
  · -- Two combinations in lexicographic order cannot hold the same tuple.
    have hlt := (List.pairwise_cons.mp hsorted).1 c' List.mem_cons_self
    have heq := (hpicks c List.mem_cons_self).positions_eq
      (fun m hm => (hlevels m hm).full) hdisjoint
      (hpicks c' (List.mem_cons_of_mem c List.mem_cons_self))
    exact absurd heq hlt.ne

/-- The leaf regions of maps that partition a domain partition it too. -/
theorem partitionedBy_leafRegions (hlevels : ∀ m ∈ levels, m.IsOver d)
    (hparts : ∀ m ∈ levels, m.Partitions d) (hne : levels ≠ []) :
    d.PartitionedBy (leafRegions levels) where
  full := by
    intro region hregion
    obtain ⟨positions, hr⟩ := (mem_leafRegions hlevels).mp hregion
    exact (isRegion_region? hlevels hr).dimensions
  inside := by
    intro region hregion tuple htuple
    obtain ⟨positions, hr⟩ := (mem_leafRegions hlevels).mp hregion
    obtain ⟨m, hm⟩ := List.exists_mem_of_ne_nil levels hne
    obtain ⟨b, hb, hbt⟩ := (picks_of_region? hlevels hr htuple).covered m hm
    exact (hparts m hm).boxes.inside b (Array.mem_toList_iff.mpr hb) tuple hbt
  holders := by
    intro tuple htuple
    have hcovered : CoveredBy levels tuple := fun m hm => (hparts m hm).holds htuple
    obtain ⟨positions, hpicks⟩ := exists_picks hlevels hcovered
    obtain ⟨region, hr, hrt, -⟩ := exists_region?_of_picks hlevels hne hpicks
    have hpos : 0 < Box.holders (leafRegions levels) tuple :=
      Box.holders_pos_iff.mpr ⟨region, (mem_leafRegions hlevels).mpr ⟨positions, hr⟩, hrt⟩
    have hle := holders_leafRegions_le_one hlevels
      (fun m hm => (hparts m hm).isDisjoint) tuple
    omega

/-- The leaf regions of maps that partition a domain are their common
refinement. -/
theorem commonRefinement_leafRegions (hlevels : ∀ m ∈ levels, m.IsOver d)
    (hparts : ∀ m ∈ levels, m.Partitions d) (hne : levels ≠ []) :
    CommonRefinement d levels (leafRegions levels) where
  partition := partitionedBy_leafRegions hlevels hparts hne
  value := by
    intro region hregion tuple htuple
    obtain ⟨positions, hr⟩ := (mem_leafRegions hlevels).mp hregion
    have hpicks := picks_of_region? hlevels hr htuple
    exact ⟨hpicks.covered,
      hpicks.eq_valueSum hlevels fun m hm => (hparts m hm).isDisjoint⟩
  together := by
    intro tuple tuple' htuple _
    have hpart := partitionedBy_leafRegions hlevels hparts hne
    obtain ⟨region, hregion, hrt⟩ := hpart.exists_contains htuple
    obtain ⟨positions, hr⟩ := (mem_leafRegions hlevels).mp hregion
    have hpicks := picks_of_region? hlevels hr hrt
    rw [← hpart.contains_iff_together hregion hrt, ← hpicks.exists_iff_together hparts]
    constructor
    · intro hrt'
      exact ⟨_, picks_of_region? hlevels hr hrt'⟩
    · rintro ⟨y, hpicks'⟩
      obtain ⟨region', hr', hrt', -⟩ := exists_region?_of_picks hlevels hne hpicks'
      obtain rfl := Option.some.inj (hr.symm.trans hr')
      exact hrt'

/-! ## A search without pruning -/

theorem visitLeaf_noteMeet (region : Box ℚ) :
    Function.Commute (visitLeaf · region) noteMeet :=
  fun _ => rfl

theorem foldl_visitLeaf_noteMeet (regions : List (Box ℚ)) (n : ℕ) (s : Search ℚ) :
    regions.foldl visitLeaf (noteMeet^[n] s) =
      noteMeet^[n] (regions.foldl visitLeaf s) := by
  induction regions generalizing s with
  | nil => rfl
  | cons region regions ih =>
      rw [List.foldl_cons, List.foldl_cons, ← ih]
      congr 1
      exact (visitLeaf_noteMeet region).iterate_right n s

theorem skips_eq_false {rule : SearchRule ℚ} (hrule : rule.prune = false)
    (best : Option (Find ℚ)) (levels : List (PiecewiseMap ℚ)) (region : Box ℚ) :
    rule.skips best levels region = false := by
  cases best with
  | none => rfl
  | some find => rw [SearchRule.skips, hrule, Bool.false_and]

/-- Without pruning a search visits the regions of its combinations one after
the other, and otherwise only meets boxes. -/
theorem account_visits (d : Domain ℚ) {rule : SearchRule ℚ}
    (hrule : rule.prune = false) :
    Account d rule fun regions s t =>
      ∃ n, t = noteMeet^[n] (regions.foldl visitLeaf s) where
  nil s := ⟨0, rfl⟩
  append := by
    rintro regions regions' s _ _ ⟨n, rfl⟩ ⟨n', rfl⟩
    refine ⟨n' + n, ?_⟩
    rw [foldl_visitLeaf_noteMeet, ← List.foldl_append, Function.iterate_add_apply]
  meet s := ⟨1, rfl⟩
  leaf region s := ⟨0, rfl⟩
  skip := by
    intro levels region s _ _ hskips
    rw [skips_eq_false hrule] at hskips
    cases hskips

theorem run_unpruned (hlevels : ∀ m ∈ levels, m.IsOver d) {rule : SearchRule ℚ}
    (hrule : rule.prune = false) (s : Search ℚ) :
    ∃ n, run rule levels s = noteMeet^[n] ((leafRegions levels).foldl visitLeaf s) :=
  (account_visits d hrule).run hlevels s

theorem leaves_foldl_visitLeaf (regions : List (Box ℚ)) (s : Search ℚ) :
    (regions.foldl visitLeaf s).stats.leaves = s.stats.leaves + regions.length := by
  induction regions generalizing s with
  | nil => rfl
  | cons region regions ih =>
      have hvisit : (s.visitLeaf region).stats.leaves = s.stats.leaves + 1 := rfl
      rw [List.foldl_cons, ih, hvisit, List.length_cons]
      omega

/-- Visiting a leaf leaves a best find. -/
theorem isSome_best_foldl_visitLeaf (hregions : regions ≠ []) (s : Search ℚ) :
    (regions.foldl visitLeaf s).best.isSome = true := by
  obtain ⟨before, last, rfl⟩ := (List.eq_nil_or_concat' regions).resolve_left hregions
  rw [List.foldl_append, List.foldl_cons, List.foldl_nil]
  unfold visitLeaf
  split
  · rfl
  · split <;> rfl

theorem noteMeet_iterate (n : ℕ) (s : Search ℚ) :
    noteMeet^[n] s =
      { s with stats := { s.stats with meets := s.stats.meets + n } } := by
  induction n generalizing s with
  | zero => rfl
  | succ n ih =>
      rw [Function.iterate_succ_apply, ih]
      simp only [noteMeet, Nat.add_assoc, Nat.add_comm 1 n]

/-- Without pruning a search of maps with leaf regions answers, and counts each
leaf region once. -/
theorem solution?_run_unpruned (hlevels : ∀ m ∈ levels, m.IsOver d)
    (hregions : leafRegions levels ≠ []) {rule : SearchRule ℚ}
    (hrule : rule.prune = false) (best : Option (Find ℚ)) :
    ∃ solution, (run rule levels { best := best }).solution? = some solution ∧
      solution.stats.leaves = (leafRegions levels).length := by
  obtain ⟨n, hrun⟩ := run_unpruned hlevels hrule { best := best }
  obtain ⟨find, hfind⟩ := Option.isSome_iff_exists.mp
    (isSome_best_foldl_visitLeaf hregions { best := best })
  rw [hrun, noteMeet_iterate, solution?]
  simp only [hfind, Option.map_some]
  refine ⟨_, rfl, ?_⟩
  exact (leaves_foldl_visitLeaf _ _).trans (Nat.zero_add _)

end Search

/-- Without pruning, on maps that each partition the domain, a search visits
the common refinement of the maps, leaf by leaf.  How many leaves it counts is
at least one and at most the number of tuples of the domain, and is the same
for every order of the maps and whatever grids they carry. -/
theorem solve_visits_commonRefinement (hne : maps ≠ [])
    (hparts : ∀ m ∈ maps, m.Partitions d) (hmodelled : ∀ m ∈ maps, m.IsModelled) :
    ∃ n, 1 ≤ n ∧ n ≤ d.counts.prod ∧
      ∀ maps', List.Forall₂ PiecewiseMap.SamePieces maps maps' →
        ∀ cfg : SolverConfig ℚ, cfg.prune = false → 0 < cfg.optimality →
          cfg.optimality ≤ 100 → cfg.order.ValidFor maps'.length →
          ∃ levels solution, cfg.order.levels? maps' = some levels ∧
            levels.Perm maps' ∧
            (∀ s, ∃ k, Search.run (SearchRule.ofConfig cfg) levels s =
              Search.noteMeet^[k]
                ((Search.leafRegions levels).foldl Search.visitLeaf s)) ∧
            CommonRefinement d maps' (Search.leafRegions levels) ∧
            solve maps' cfg = .ok (some solution) ∧
            solution.stats.leaves = n := by
  have hover : ∀ m ∈ maps, m.IsOver d := fun m hm =>
    (hparts m hm).isOver (hmodelled m hm)
  have hfirst := Search.commonRefinement_leafRegions hover hparts hne
  refine ⟨_, hfirst.length_pos, hfirst.partition.length_le, ?_⟩
  intro maps' hsame cfg hprune hpos hle hvalid
  have hparts' := PiecewiseMap.SamePieces.forall_mem
    PiecewiseMap.SamePieces.partitions hsame hparts
  have hmodelled' := PiecewiseMap.SamePieces.forall_mem
    PiecewiseMap.SamePieces.isModelled hsame hmodelled
  have hsearch : Searchable d maps' cfg.order :=
    { ne_nil := fun hnil => hne (List.forall₂_nil_right_iff.mp (hnil ▸ hsame))
      nonempty := fun m hm => (hparts' m hm).isEmpty_eq_false
      isOver := fun m hm => (hparts' m hm).isOver (hmodelled' m hm)
      valid := hvalid }
  obtain ⟨levels, hlevels, hperm, hlevelsne, hlover⟩ := hsearch.exists_levels
  have hrefine := (Search.commonRefinement_leafRegions hlover
    (fun m hm => hparts' m (hperm.mem_iff.mp hm)) hlevelsne).perm hperm
  have hlength : (Search.leafRegions levels).length =
      (Search.leafRegions maps).length := by
    have hextents := (hfirst.perm_extents hrefine hsame).length_eq
    rw [List.length_map, List.length_map] at hextents
    exact hextents.symm
  have hprune' : (SearchRule.ofConfig cfg).prune = false := hprune
  obtain ⟨solution, hsolution, hleaves⟩ := Search.solution?_run_unpruned hlover
    (List.ne_nil_of_length_pos hrefine.length_pos) hprune'
    (Search.seedFind? levels cfg.seed)
  refine ⟨levels, solution, hlevels, hperm, ?_, hrefine, ?_, ?_⟩
  · exact Search.run_unpruned hlover hprune'
  · rw [hsearch.solve_eq cfg hpos hle hlevels, hsolution]
  · rw [hleaves, hlength]

theorem PiecewiseMap.partitions_onSwitch {values : List (Interval × ℚ)}
    (h : ∀ j, values.countP (·.1.contains j) = (Interval.switch.contains j).toNat) :
    (onSwitch values).Partitions Domain.switch :=
  ⟨rfl, Domain.partitionedBy_switch values h⟩

theorem partitions_switchPair (x y : ℚ) :
    ∀ m ∈ switchPair x y, m.Partitions Domain.switch := by
  intro m hm
  simp only [switchPair, List.mem_cons, List.not_mem_nil, or_false] at hm
  rcases hm with rfl | rfl
  · apply PiecewiseMap.partitions_onSwitch
    rintro (_ | _ | j) <;> rfl
  · apply PiecewiseMap.partitions_onSwitch
    rintro (_ | _ | j) <;> rfl

/-- Two maps over the switch have the same number of leaves in both orders of
the maps, with grids and without. -/
theorem solve_visits_commonRefinement_switchPair :
    ∃ s t, solve (switchPair 1 4) { prune := false } = .ok (some s) ∧
      solve ((switchPair 1 4).map PiecewiseMap.updateGrid)
        { prune := false, order := .explicit [1, 0] } = .ok (some t) ∧
      s.stats.leaves = t.stats.leaves := by
  obtain ⟨n, -, -, hall⟩ := solve_visits_commonRefinement
    (List.cons_ne_nil _ _) (partitions_switchPair 1 4)
    fun m hm => ((searchable_switchPair 1 4).isOver m hm).modelled
  have hself : List.Forall₂ PiecewiseMap.SamePieces (switchPair 1 4) (switchPair 1 4) :=
    List.forall₂_same.mpr fun _ _ => ⟨rfl, rfl, rfl⟩
  have hgrids : List.Forall₂ PiecewiseMap.SamePieces (switchPair 1 4)
      ((switchPair 1 4).map PiecewiseMap.updateGrid) := by
    rw [List.forall₂_map_right_iff, List.forall₂_same]
    exact fun _ _ => ⟨rfl, rfl, rfl⟩
  obtain ⟨-, s, -, -, -, -, hs, hleaves⟩ := hall _ hself { prune := false } rfl
    (by norm_num) (by norm_num) trivial
  obtain ⟨-, t, -, -, -, -, ht, hleaves'⟩ := hall _ hgrids
    { prune := false, order := .explicit [1, 0] } rfl (by norm_num) (by norm_num)
    (List.Perm.swap 0 1 [])
  exact ⟨s, t, hs, ht, hleaves.trans hleaves'.symm⟩

end IntervalProgramming
