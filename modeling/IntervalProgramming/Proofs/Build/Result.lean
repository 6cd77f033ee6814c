import Mathlib.Data.Rat.Floor
import IntervalProgramming.Proofs.Build.Stages
import IntervalProgramming.Proofs.Refine.Worklist
import IntervalProgramming.Proofs.Solve.Order

/-!
# What a build gives

A built map is cut from the layout of the build with the plateaus left still,
then possibly rescaled, and given a grid.  So it partitions the domain, its
boxes respect the plateaus, and plateaus and points that were pieces of the
layout are pieces of the map.
-/

namespace IntervalProgramming

variable {α : Type} [Scalar α]

/-! ## What fitting and rescaling leave alone -/

theorem Box.length_slopes_setModel (b : Box α) (slopes : List α) (intercept : α) :
    (b.setModel slopes intercept).slopes.length = b.extents.length := by
  simp only [setModel, List.length_append, List.length_take, List.length_replicate]
  omega

theorem Regressor.length_slopes_fit (r : Regressor α) (b : Box α) :
    (r.fit b).box.slopes.length = b.extents.length := by
  obtain ⟨slopes, intercept, hfit⟩ := r.exists_fit_eq b
  rw [hfit, Box.length_slopes_setModel]

namespace PiecewiseMap

/-- Normalising gives every box another model with as many slopes. -/
theorem exists_normalize_eq (m : PiecewiseMap α) (lo hi : α) :
    ∃ f : Box α → Box α, (m.normalize lo hi).boxes = m.boxes.map f ∧
      ∀ b, (f b).extents = b.extents ∧ (f b).slopes.length = b.slopes.length := by
  unfold normalize
  split
  · split
    · exact ⟨_, rfl, fun b => ⟨rfl, List.length_map _⟩⟩
    · exact ⟨_, rfl, fun b => ⟨rfl, List.length_map _⟩⟩
  · exact ⟨id, by simp, fun b => ⟨rfl, rfl⟩⟩

theorem layout_normalize (m : PiecewiseMap α) (lo hi : α) :
    (m.normalize lo hi).layout = m.layout := by
  obtain ⟨f, hboxes, hf⟩ := m.exists_normalize_eq lo hi
  rw [layout, hboxes, Array.toList_map, List.map_map, layout]
  apply List.map_congr_left
  intro b _
  exact (hf b).1

theorem IsModelled.normalize {m : PiecewiseMap α} (h : m.IsModelled) (lo hi : α) :
    (m.normalize lo hi).IsModelled := by
  obtain ⟨f, hboxes, hf⟩ := m.exists_normalize_eq lo hi
  intro c hc
  rw [hboxes, Array.mem_map] at hc
  obtain ⟨b, hb, rfl⟩ := hc
  rw [(hf b).1, (hf b).2, h b hb]

theorem boxes_ensureGrid (m : PiecewiseMap α) : m.ensureGrid.boxes = m.boxes := by
  unfold ensureGrid
  split
  · rfl
  · rfl

theorem domain_ensureGrid (m : PiecewiseMap α) :
    m.ensureGrid.domain = m.domain := by
  unfold ensureGrid
  split
  · rfl
  · rfl

theorem isSome_grid_ensureGrid (m : PiecewiseMap α) :
    m.ensureGrid.grid.isSome = true := by
  unfold ensureGrid
  split
  · assumption
  · rfl

end PiecewiseMap

/-! ## From the layout to the map -/

namespace BuildConfig

variable {cfg : BuildConfig α} {solver : LinearSolver α} {o : Objective α}
  {m layout : PiecewiseMap α} {first : ℕ}

theorem build_eq_ok (h : cfg.build solver o = .ok m) :
    ∃ layout first, cfg.layout? o.domain = .ok (layout, first) ∧
      m = cfg.finish (cfg.refineLayout solver o layout first) := by
  obtain ⟨⟨layout, first⟩, hlayout, h⟩ := exists_of_bind_eq_ok h
  exact ⟨layout, first, hlayout, (Except.ok.inj h).symm⟩

theorem refineLayout_eq (cfg : BuildConfig α) (solver : LinearSolver α) (o : Objective α)
    (layout : PiecewiseMap α) (first : ℕ) :
    cfg.refineLayout solver o layout first =
      ((Refinement.evaluatePinned layout
        (Regressor.forObjective solver o cfg.degree cfg.samples) first).refine
          (cfg.cutLimit layout.size) cfg.threshold).2.map := by
  rw [refineLayout, Refinement.size_map_evaluatePinned]

theorem cutFrom_refineLayout (cfg : BuildConfig α) (solver : LinearSolver α) (o : Objective α)
    (layout : PiecewiseMap α) (first : ℕ) :
    PiecewiseMap.CutFrom (fun ix => first ≤ ix ∧ ix < layout.size) layout
      (cfg.refineLayout solver o layout first) := by
  have hsize := Refinement.size_map_evaluatePinned layout
    (Regressor.forObjective solver o cfg.degree cfg.samples) first
  rw [refineLayout_eq]
  apply (PiecewiseMap.CutFrom.of_layout
    (Refinement.layout_evaluatePinned layout _ first)).trans
  apply Refinement.cutFrom_refine
  · intro entry hentry
    have hix := Refinement.ix_lt_of_mem_evaluatePinned hentry
    omega
  · intro ix hix
    omega

theorem size_refineLayout_le (cfg : BuildConfig α) (solver : LinearSolver α) (o : Objective α)
    (layout : PiecewiseMap α) (first : ℕ) :
    (cfg.refineLayout solver o layout first).size ≤
      layout.size + cfg.cutLimit layout.size := by
  obtain ⟨hcuts, hgrown⟩ := Refinement.size_map_refine
    (Refinement.evaluatePinned layout
      (Regressor.forObjective solver o cfg.degree cfg.samples) first)
    (cfg.cutLimit layout.size) cfg.threshold
  rw [refineLayout_eq, hgrown, Refinement.size_map_evaluatePinned]
  exact Nat.add_le_add_left hcuts _

theorem domain_refineLayout (cfg : BuildConfig α) (solver : LinearSolver α) (o : Objective α)
    (layout : PiecewiseMap α) (first : ℕ) :
    (cfg.refineLayout solver o layout first).domain = layout.domain := by
  rw [refineLayout_eq, (Refinement.keeps_refine _ _ _).domain,
    (Refinement.keeps_evaluatePinned _ _ _).domain]

theorem isModelled_refineLayout {cfg : BuildConfig α} {solver : LinearSolver α} {o : Objective α}
    {layout : PiecewiseMap α} (hdomain : (o.domain == layout.domain) = true)
    (first : ℕ) : (cfg.refineLayout solver o layout first).IsModelled := by
  let r := Regressor.forObjective solver o cfg.degree cfg.samples
  have hrun : Refinement.RunOf layout r first _ :=
    (Refinement.runOf_evaluatePinned hdomain first).refine
      (cfg.cutLimit layout.size) cfg.threshold
  rw [refineLayout_eq]
  intro b hb
  obtain ⟨ix, hix⟩ := Array.mem_iff_getElem?.mp hb
  rw [← hrun.inStep.model ix b hix trivial, Regressor.length_slopes_fit,
    Regressor.extents_fit]

theorem layout_finish (cfg : BuildConfig α) (m : PiecewiseMap α) :
    (cfg.finish m).layout = m.layout := by
  unfold finish rescale
  rw [PiecewiseMap.layout, PiecewiseMap.boxes_ensureGrid]
  split
  · exact m.layout_normalize _ _
  · rfl

theorem domain_finish (cfg : BuildConfig α) (m : PiecewiseMap α) :
    (cfg.finish m).domain = m.domain := by
  unfold finish rescale
  rw [PiecewiseMap.domain_ensureGrid]
  split
  · exact (PiecewiseMap.keeps_normalize m _ _).domain
  · rfl

theorem isModelled_finish {m : PiecewiseMap α} (h : m.IsModelled)
    (cfg : BuildConfig α) : (cfg.finish m).IsModelled := by
  unfold finish rescale PiecewiseMap.IsModelled
  rw [PiecewiseMap.boxes_ensureGrid]
  split
  · exact h.normalize _ _
  · exact h

/-- What a build that gives a map has made of its layout. -/
structure Built (cfg : BuildConfig α) (o : Objective α) (layout : PiecewiseMap α)
    (first : ℕ) (m : PiecewiseMap α) : Prop where
  laidOut : cfg.LaidOut o.domain layout first
  domain : m.domain = o.domain
  cutFrom : PiecewiseMap.CutFrom (fun ix => first ≤ ix ∧ ix < layout.size) layout m
  size_le : m.size ≤ layout.size + cfg.cutLimit layout.size
  modelled : (o.domain == o.domain) = true → m.IsModelled
  grid : m.grid.isSome = true

theorem built_of_build (h : cfg.build solver o = .ok m) :
    ∃ layout first, cfg.layout? o.domain = .ok (layout, first) ∧
      Built cfg o layout first m := by
  obtain ⟨layout, first, hlayout, rfl⟩ := build_eq_ok h
  have hlaid := laidOut_layout? hlayout
  have hdomain := hlaid.partitions.domain
  have hlast := cfg.layout_finish (cfg.refineLayout solver o layout first)
  refine ⟨layout, first, hlayout, hlaid, ?_, ?_, ?_, ?_, ?_⟩
  · rw [domain_finish, domain_refineLayout, hdomain]
  · exact (cutFrom_refineLayout cfg solver o layout first).trans (.of_layout hlast)
  · rw [← PiecewiseMap.length_layout, hlast, PiecewiseMap.length_layout]
    exact size_refineLayout_le cfg solver o layout first
  · intro hself
    have hsame : (o.domain == layout.domain) = true := by rwa [hdomain]
    exact isModelled_finish (isModelled_refineLayout hsame first) cfg
  · exact PiecewiseMap.isSome_grid_ensureGrid _

theorem Built.partitionedBy (h : Built cfg o layout first m) :
    o.domain.PartitionedBy m.boxes.toList :=
  h.cutFrom.partitionedBy h.laidOut.partitions.boxes

end BuildConfig

/-! ## The built map is a partition -/

/-- No extent of a partition reaches past its variable. -/
theorem Domain.PartitionedBy.hi_lt {d : Domain α} {boxes : List (Box α)}
    (h : d.PartitionedBy boxes) {b : Box α} (hb : b ∈ boxes) {e : Extent}
    (he : e ∈ b.extents) : e.hi < d.pointCount e.dim := by
  obtain ⟨k, hk⟩ := List.mem_iff_getElem?.mp he
  have hhigh : b.contains (b.extents.map (·.hi)) = true := by
    rw [Box.contains_eq_true_iff, List.forall₂_map_right_iff, List.forall₂_same]
    exact fun f _ => ⟨f.le, Nat.le_refl _⟩
  have htuple := h.inside b hb _ hhigh
  have hdim : e.dim = k := by
    have hget := congrArg (·[k]?) (h.full b hb)
    simp only [Box.dimensions, List.getElem?_map, hk, Option.map_some] at hget
    exact (List.getElem?_eq_some_iff.mp hget.symm).2.symm.trans (by simp)
  obtain ⟨hlen, hlt⟩ := List.forall₂_iff_get.mp htuple
  rw [List.length_map] at hlen
  obtain ⟨hkb, hke⟩ := List.getElem?_eq_some_iff.mp hk
  have hkv : k < d.vars.length := by
    rw [hlen, counts, List.length_map] at hkb
    exact hkb
  have hhi := hlt k (by simpa using hkb) (by simpa [counts] using hkv)
  simp only [List.get_eq_getElem, List.getElem_map, counts, hke] at hhi
  rw [hdim, pointCount, var?, List.getElem?_eq_getElem hkv]
  exact hhi

/-- The limit on the number of cuts, with the percentage read exactly. -/
theorem BuildConfig.cutLimit_le (cfg : BuildConfig ℚ) (pieces : ℕ) :
    cfg.cutLimit pieces ≤
      max cfg.budget ⌊(pieces : ℚ) * max cfg.percent 0 / 100⌋₊ := by
  unfold cutLimit
  rw [Scalar.max_eq]
  apply max_le_max (Nat.le_refl _)
  apply (Nat.min_le_right _ _).trans
  rw [Nat.cast_zero, Nat.cast_ofNat]
  exact (Int.floor_toNat ((pieces : ℚ) * max cfg.percent 0 / 100)).le

/-- Every map that is built partitions the domain of its objective: each tuple
lies in exactly one box, and every box spans the dimensions of the domain and
stays inside of it.  The map has a grid over its boxes.  Over exact numbers all
boxes have one slope for each extent, and there are at most as many boxes more
than the layout has pieces as the budget or the percentage allows.  Over other
scalars the slopes need the domain to equal itself as numbers, since a fit is
refused over a different domain. -/
theorem build_partition :
    (∀ {α : Type} [Scalar α] {cfg : BuildConfig α} {solver : LinearSolver α} {o : Objective α}
      {m : PiecewiseMap α}, cfg.build solver o = .ok m →
      m.domain = o.domain ∧
      (∀ tuple, o.domain.HasTuple tuple →
        m.boxes.toList.countP (·.contains tuple) = 1) ∧
      (∀ b ∈ m.boxes, b.spansFirst o.domain.size = true ∧
        ∀ e ∈ b.extents, e.lo ≤ e.hi ∧ e.hi < o.domain.pointCount e.dim) ∧
      ((o.domain == o.domain) = true →
        ∀ b ∈ m.boxes, b.slopes.length = b.extents.length) ∧
      ∃ cell, m.grid = some (Grid.build m.domain m.degree m.boxes.toList cell)) ∧
    ∀ {cfg : BuildConfig ℚ} {solver : LinearSolver ℚ} {o : Objective ℚ} {m : PiecewiseMap ℚ},
      cfg.build solver o = .ok m →
      (∀ b ∈ m.boxes, b.slopes.length = b.extents.length) ∧
      ∃ layout first, cfg.layout? o.domain = .ok (layout, first) ∧
        m.size ≤ layout.size +
          max cfg.budget ⌊(layout.size : ℚ) * max cfg.percent 0 / 100⌋₊ := by
  constructor
  · intro α _ cfg solver o m h
    obtain ⟨layout, first, -, hbuilt⟩ := BuildConfig.built_of_build h
    have hpart := hbuilt.partitionedBy
    refine ⟨hbuilt.domain, hpart.holders, ?_, hbuilt.modelled, ?_⟩
    · intro b hb
      rw [← Array.mem_toList_iff] at hb
      exact ⟨Box.spansFirst_eq_true_iff.mpr (hpart.full b hb),
        fun e he => ⟨e.le, hpart.hi_lt hb he⟩⟩
    · obtain ⟨g, hg⟩ := Option.isSome_iff_exists.mp hbuilt.grid
      obtain ⟨cell, rfl⟩ := m.grid_current g hg
      exact ⟨cell, hg⟩
  · intro cfg solver o m h
    obtain ⟨layout, first, hlayout, hbuilt⟩ := BuildConfig.built_of_build h
    refine ⟨hbuilt.modelled o.domain.beq_self, layout, first, hlayout, ?_⟩
    exact hbuilt.size_le.trans (Nat.add_le_add_left (cfg.cutLimit_le _) _)

/-- The build on the plate that starts from five columns to a piece, makes the
lowest tuple a piece and the last two columns a plateau, and may cut three
times. -/
def BuildConfig.onPlate : BuildConfig ℚ where
  unit := .widths [5, 3]
  budget := 3
  points := [Box.ofPoint [0, 0]]
  plateaus := [Box.onPlate 8 1 2]
  normalize := true

/-- On the product of the coordinates the build makes three cuts of a layout of
five pieces. -/
theorem BuildConfig.exists_build_onPlate :
    ∃ m layout first, BuildConfig.onPlate.build leastSquares Objective.onPlate = .ok m ∧
      BuildConfig.onPlate.layout? Domain.plate = .ok (layout, first) ∧
      layout.size = 5 ∧ first = 4 ∧ m.size = 8 := by
  have hlayout : (BuildConfig.onPlate.layout? Domain.plate).toOption.map
      (fun laidOut => (laidOut.1.size, laidOut.2)) = some (5, 4) := by
    decide +kernel
  have hbuild : (BuildConfig.onPlate.build leastSquares Objective.onPlate).toOption.map
      (·.size) = some 8 := by
    decide +kernel
  generalize BuildConfig.onPlate.layout? Domain.plate = laidOut at hlayout
  generalize BuildConfig.onPlate.build leastSquares Objective.onPlate = built at hbuild
  cases laidOut with
  | error e => cases hlayout
  | ok laidOut =>
      cases built with
      | error e => cases hbuild
      | ok m =>
          obtain ⟨hsize, hfirst⟩ := Prod.mk.inj (Option.some.inj hlayout)
          exact ⟨m, laidOut.1, laidOut.2, rfl, rfl, hsize, hfirst, Option.some.inj hbuild⟩

/-- A tuple of the plate lies in exactly one of the eight boxes of its build, and
there are no more than the three cuts allow. -/
theorem build_partition_plate :
    ∃ m, BuildConfig.onPlate.build leastSquares Objective.onPlate = .ok m ∧ m.size = 8 ∧
      m.boxes.toList.countP (·.contains [0, 0]) = 1 ∧
      m.boxes.toList.countP (·.contains [6, 2]) = 1 ∧
      (∀ b ∈ m.boxes, b.slopes.length = b.extents.length) ∧ m.size ≤ 5 + 3 := by
  obtain ⟨m, layout, first, hm, hlayout, hfive, -, hsize⟩ := BuildConfig.exists_build_onPlate
  obtain ⟨hall, hexact⟩ := build_partition
  obtain ⟨-, hholders, -⟩ := hall hm
  obtain ⟨hslopes, layout', first', hlayout', hle⟩ := hexact hm
  obtain ⟨rfl, rfl⟩ := Prod.mk.inj (Except.ok.inj (hlayout.symm.trans hlayout'))
  have hcuts : max BuildConfig.onPlate.budget
      ⌊(5 : ℚ) * max BuildConfig.onPlate.percent 0 / 100⌋₊ = 3 := by
    norm_num [BuildConfig.onPlate]
  rw [hfive, Nat.cast_ofNat, hcuts] at hle
  refine ⟨m, hm, hsize, hholders [0, 0] ?_, hholders [6, 2] ?_, hslopes, hle⟩
  · exact List.Forall₂.cons (by decide) (List.Forall₂.cons (by decide) List.Forall₂.nil)
  · exact List.Forall₂.cons (by decide) (List.Forall₂.cons (by decide) List.Forall₂.nil)

/-! ## Plateaus and points are pieces of the built map -/

/-- Extents that occur in a partition occur once. -/
theorem Domain.PartitionedBy.count_layout {d : Domain α} {m : PiecewiseMap α}
    (h : d.PartitionedBy m.boxes.toList) {extents : List Extent}
    (hpiece : m.HasPiece extents) : m.layout.count extents = 1 := by
  obtain ⟨c, hc, rfl⟩ := hpiece
  have hmem : c ∈ m.boxes.toList := Array.mem_toList_iff.mpr hc
  apply Nat.le_antisymm
  · rw [← h.holders c.lows (h.inside c hmem c.lows c.contains_lows),
      PiecewiseMap.layout, List.count, List.countP_map]
    apply List.countP_mono_left
    intro b _ hb
    rw [Function.comp_apply, beq_iff_eq] at hb
    rw [Box.contains_eq_hold, hb, ← Box.contains_eq_hold]
    exact c.contains_lows
  · exact List.count_pos_iff.mpr (List.mem_map_of_mem hmem)

/-- In every map that is built each box is clear of all plateaus or lies in one
of them.  A plateau that overlaps no earlier one, and a point outside of all
plateaus, has its extents in exactly one box. -/
theorem build_keeps_pieces {cfg : BuildConfig α} {solver : LinearSolver α} {o : Objective α}
    {m : PiecewiseMap α} (h : cfg.build solver o = .ok m) :
    (∀ b ∈ m.boxes, (∀ p ∈ cfg.plateaus, b.intersects p = false) ∨
      ∃ p ∈ cfg.plateaus, b.isWithin p = true) ∧
    (∀ before p after, cfg.plateaus = before ++ p :: after →
      (∀ q ∈ before, p.intersects q = false) →
      m.layout.count p.extents = 1) ∧
    ∀ p ∈ cfg.points, (∀ q ∈ cfg.plateaus, p.intersects q = false) →
      m.layout.count p.extents = 1 := by
  obtain ⟨layout, first, -, hbuilt⟩ := BuildConfig.built_of_build h
  have hpart := hbuilt.partitionedBy
  have hlaid := hbuilt.laidOut
  refine ⟨?_, ?_, ?_⟩
  · intro c hc
    obtain ⟨b, hb, hwithin⟩ := hbuilt.cutFrom.part c hc
    rcases hlaid.clear b hb with hclear | ⟨p, hp, hbp⟩
    · left
      intro p hp
      rw [Box.intersects_comm]
      apply Box.intersects_eq_false_of_isWithin hwithin
      rw [Box.intersects_comm, hclear p hp]
    · exact Or.inr ⟨p, hp, Box.isWithin_trans hwithin hbp⟩
  · intro before p after hsplit hclear
    obtain ⟨ix, hfirst, hix⟩ := hlaid.plateau before p after hsplit hclear
    have hsize : ix < layout.size := (Array.getElem?_eq_some_iff.mp hix).1
    obtain ⟨c, hc, hextents⟩ :=
      hbuilt.cutFrom.still ix p hix (Or.inl ⟨hfirst, hsize⟩)
    exact hpart.count_layout ⟨c, Array.mem_of_getElem? hc, hextents⟩
  · intro p hp hclear
    obtain ⟨hpoint, b, hb, hextents⟩ := hlaid.point p hp hclear
    obtain ⟨ix, hix⟩ := Array.mem_iff_getElem?.mp hb
    have hbpoint : b.isPoint = true := by rwa [Box.isPoint, hextents]
    obtain ⟨c, hc, hextents'⟩ := hbuilt.cutFrom.still ix b hix (Or.inr hbpoint)
    exact hpart.count_layout ⟨c, Array.mem_of_getElem? hc, hextents'.trans hextents⟩

/-- The lowest tuple and the last two columns of the plate are pieces of its
build. -/
theorem build_keeps_pieces_plate :
    ∃ m, BuildConfig.onPlate.build leastSquares Objective.onPlate = .ok m ∧ m.size = 8 ∧
      m.layout.count (Box.ofPoint [0, 0] : Box ℚ).extents = 1 ∧
      m.layout.count (Box.onPlate 8 1 2).extents = 1 := by
  obtain ⟨m, -, -, hm, -, -, -, hsize⟩ := BuildConfig.exists_build_onPlate
  obtain ⟨-, hplateaus, hpoints⟩ := build_keeps_pieces hm
  refine ⟨m, hm, hsize, hpoints _ (List.mem_singleton_self _) ?_, hplateaus [] _ [] rfl ?_⟩
  · decide
  · decide

end IntervalProgramming
