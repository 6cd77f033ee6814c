import IntervalProgramming.Proofs.Solve.Relaxed

/-!
# The work of a search

Two searches of the same levels are compared step by step.  If one of them
skips every branch that the other one skips, and stays so while the other one
explores a branch that it skipped itself, then it visits no more leaves and
meets no more boxes.  Pruning, a seed and slack all have this effect: what
counts is the value that a branch has to beat, which is never below that of the
other search.
-/

namespace IntervalProgramming

/-- No more leaves visited and no more boxes met. -/
structure SolveStats.AtMost (s t : SolveStats) : Prop where
  leaves : s.leaves ≤ t.leaves
  meets : s.meets ≤ t.meets

theorem SolveStats.AtMost.trans {s t u : SolveStats} (h : s.AtMost t)
    (h' : t.AtMost u) : s.AtMost u :=
  ⟨h.leaves.trans h'.leaves, h.meets.trans h'.meets⟩

theorem SolveStats.AtMost.refl (s : SolveStats) : s.AtMost s :=
  ⟨Nat.le_refl _, Nat.le_refl _⟩

namespace Search

variable {d : Domain ℚ} {levels : List (PiecewiseMap ℚ)} {region : Box ℚ}
  {regions : List (Box ℚ)} {best last : Option (Find ℚ)} {positions tuple : List ℕ}

/-! ## One search -/

/-- Along a search the counts only grow. -/
theorem account_atMost (d : Domain ℚ) (rule : SearchRule ℚ) :
    Account d rule fun _ s t => s.stats.AtMost t.stats where
  nil s := .refl s.stats
  append h h' := h.trans h'
  meet _ := ⟨Nat.le_refl _, Nat.le_succ _⟩
  leaf _ _ := ⟨Nat.le_succ _, Nat.le_refl _⟩
  skip := fun _ _ _ => ⟨Nat.le_refl _, Nat.le_refl _⟩

/-- What a branch has to beat under a best find of this value. -/
def bar (slack x : ℚ) : ℚ :=
  x + slack * |x|

theorem bar_mono {slack x y : ℚ} (hslack : 0 ≤ slack)
    (hx : slack = 0 ∨ 0 ≤ x) (hxy : x ≤ y) : bar slack x ≤ bar slack y := by
  unfold bar
  rcases hx with rfl | hx
  · rw [zero_mul, zero_mul, add_zero, add_zero]
    exact hxy
  · rw [abs_of_nonneg hx, abs_of_nonneg (hx.trans hxy)]
    exact add_le_add hxy (mul_le_mul_of_nonneg_left hxy hslack)

/-- A branch is skipped if pruning is on and no bound on it beats the best
find. -/
theorem skips_eq_true_iff {rule : SearchRule ℚ} :
    rule.skips best levels region = true ↔
      rule.prune = true ∧ ∃ find, best = some find ∧
        ∀ x, completionBound levels region = some x → x ≤ bar rule.slack find.value := by
  cases best with
  | none => simp [SearchRule.skips]
  | some find =>
      simp only [SearchRule.skips, Bool.and_eq_true, Bool.not_eq_true',
        Option.some.injEq, exists_eq_left', SearchRule.beats, Scalar.abs_eq, bar]
      cases completionBound levels region with
      | none => simp
      | some x => simp

/-- The last find of a scan is not above what neither the first find nor any
region exceeds. -/
theorem Scan.le_of_forall_le {passes : Find ℚ → Box ℚ → Prop} {v : ℚ}
    (h : Scan passes best regions last)
    (hbest : ∀ f, best = some f → f.value ≤ v)
    (hregions : ∀ r ∈ regions, r.maxVal ≤ v) :
    ∀ f, last = some f → f.value ≤ v := by
  induction h with
  | nil best => exact hbest
  | @visit best last region regions _ ih =>
      obtain ⟨hregion, hrest⟩ := List.forall_mem_cons.mp hregions
      obtain ⟨f, hf, -, -, hcases⟩ := exists_improve best region
      refine ih (fun g hg => ?_) hrest
      obtain rfl := Option.some.inj (hf.symm.trans hg)
      rcases hcases with heq | hbest'
      · exact heq.trans_le hregion
      · exact hbest f hbest'
  | pass _ _ ih => exact ih hbest (List.forall_mem_cons.mp hregions).2

/-! ## Two searches in step -/

/-- A relation of best finds by which a search under the first rule is spared
work against one under the second.  It is kept where both visit a leaf, the
first search skips what the second one skips, and it stays ahead while the
second one explores a branch that the first one skipped. -/
structure Spares (d : Domain ℚ) (rule rule' : SearchRule ℚ) (good : Box ℚ → Prop)
    (R : Option (Find ℚ) → Option (Find ℚ) → Prop) : Prop where
  leaf : ∀ {a b region}, good region → R a b →
    R (improve a region) (improve b region)
  skip : ∀ {a b levels region}, R a b → rule'.skips b levels region = true →
    rule.skips a levels region = true
  ahead : ∀ {a b b' levels region}, (∀ m ∈ levels, m.IsOver d) →
    IsRegion d region → R a b → rule.skips a levels region = true →
    Scan rule'.Passes b ((completions levels region).map Prod.snd) b' → R a b'

/-- A search that has done no more than another one, with related best
finds. -/
structure Trails (R : Option (Find ℚ) → Option (Find ℚ) → Prop)
    (s t : Search ℚ) : Prop where
  best : R s.best t.best
  stats : s.stats.AtMost t.stats

namespace Spares

variable {rule rule' : SearchRule ℚ} {good : Box ℚ → Prop}
  {R : Option (Find ℚ) → Option (Find ℚ) → Prop} {s t : Search ℚ}

/-- Below a region the spared search does no more: induction on the levels,
where the loops of both searches go through the same boxes. -/
theorem descend (h : Spares d rule rule' good R) (hlevels : ∀ m ∈ levels, m.IsOver d)
    (hregion : IsRegion d region)
    (hgood : ∀ c ∈ completions levels region, good c.2) (hst : Trails R s t) :
    Trails R (descend rule levels region s) (descend rule' levels region t) := by
  induction levels generalizing region s t with
  | nil =>
      have hleaf : good region := hgood ([], region) (List.mem_singleton_self _)
      exact ⟨h.leaf hleaf hst.best,
        ⟨Nat.succ_le_succ hst.stats.leaves, hst.stats.meets⟩⟩
  | cons m levels ih =>
      by_cases hskip : rule.skips s.best (m :: levels) region = true
      · -- The second search may explore the branch, which only adds to its work.
        have hscan := (account_scan d rule').descend hlevels hregion t
        have hgrown := (account_atMost d rule').descend hlevels hregion t
        have hnoted : Search.descend rule (m :: levels) region s = s.notePruned := by
          rw [Search.descend, if_pos hskip]
        rw [hnoted]
        exact ⟨h.ahead hlevels hregion hst.best hskip hscan,
          SolveStats.AtMost.trans ⟨hst.stats.leaves, hst.stats.meets⟩ hgrown⟩
      · have hskip' : ¬ rule'.skips t.best (m :: levels) region = true :=
          fun hskip' => hskip (h.skip hst.best hskip')
        obtain ⟨hm, hrest⟩ := List.forall_mem_cons.mp hlevels
        rw [Search.descend, if_neg hskip, Search.descend, if_neg hskip']
        refine List.foldl_rel hst fun ix hix s t hst => ?_
        cases hb : m.boxes[ix]? with
        | none => exact hst
        | some b =>
            have hmet : Trails R s.noteMeet t.noteMeet :=
              ⟨hst.best, ⟨hst.stats.leaves, Nat.succ_le_succ hst.stats.meets⟩⟩
            cases hmeet : region.meetAs? b m.degree with
            | none =>
                simp only [hmeet]
                exact hmet
            | some narrowed =>
                simp only [hmeet]
                refine ih hrest
                  (hregion.meetAs? hm (Array.mem_of_getElem? hb) hmeet) ?_ hmet
                intro c hc
                have henter : m.boxes[ix]?.bind (region.meetAs? · m.degree) =
                    some narrowed := by
                  rw [hb, Option.bind_some, hmeet]
                refine hgood (ix :: c.1, c.2) (List.mem_flatMap.mpr ⟨ix, hix, ?_⟩)
                exact mem_branch.mpr ⟨c.1, rfl, narrowed, henter, hc⟩

/-- A spared search does no more work. -/
theorem run (h : Spares d rule rule' good R) (hlevels : ∀ m ∈ levels, m.IsOver d)
    (hgood : ∀ c ∈ combinations levels, good c.2) (hst : Trails R s t) :
    Trails R (run rule levels s) (run rule' levels t) := by
  cases levels with
  | nil => exact hst
  | cons top rest =>
      obtain ⟨htop, hrest⟩ := List.forall_mem_cons.mp hlevels
      rw [Search.run, Search.run, ← Array.foldl_toList, ← Array.foldl_toList]
      refine List.foldl_rel hst fun b hb s t hst => ?_
      have hbm := Array.mem_toList_iff.mp hb
      refine h.descend hrest (isRegion_asLinear htop hbm) ?_ hst
      intro c hc
      obtain ⟨ix, hix⟩ := Array.mem_iff_getElem?.mp hbm
      have hrange : ix ∈ List.range top.size :=
        List.mem_range.mpr (Array.getElem?_eq_some_iff.mp hix).1
      refine hgood (ix :: c.1, c.2) (List.mem_flatMap.mpr ⟨ix, hrange, ?_⟩)
      exact mem_branch.mpr ⟨c.1, rfl, _, by rw [hix, Option.bind_some], hc⟩

end Spares

/-- Pruning spares work, whatever the best finds are. -/
theorem spares_of_unpruned (d : Domain ℚ) (rule : SearchRule ℚ)
    {rule' : SearchRule ℚ} (hrule : rule'.prune = false) :
    Spares d rule rule' (fun _ => True) fun _ _ => True where
  leaf := fun _ _ => trivial
  skip := by
    intro a b levels region _ hskip
    rw [skips_eq_true_iff, hrule] at hskip
    cases hskip.1
  ahead := fun _ _ _ _ _ => trivial

/-- A best find whose bar, at this slack, is not below the value of another
best find.  The bar must rise with the value, so below zero there may be no
slack. -/
structure Outbids (slack : ℚ) (a b : Option (Find ℚ)) : Prop where
  rising : ∀ g, a = some g → slack = 0 ∨ 0 ≤ g.value
  le : ∀ f, b = some f → ∃ g, a = some g ∧ f.value ≤ bar slack g.value

/-- A search with slack and a best find that outbids the one of a search
without slack is spared work. -/
theorem spares_of_outbids (d : Domain ℚ) {rule rule' : SearchRule ℚ}
    (hprune : rule.prune = true) (hslack : 0 ≤ rule.slack) (hexact : rule'.slack = 0) :
    Spares d rule rule' (fun region => rule.slack = 0 ∨ 0 ≤ region.maxVal)
      (Outbids rule.slack) where
  leaf := by
    intro a b region hregion hab
    obtain ⟨g, hg, hregiong, hag, -⟩ := exists_improve a region
    obtain ⟨f, hf, -, -, hcases⟩ := exists_improve b region
    rw [hg, hf]
    refine ⟨?_, ?_⟩
    · rintro _ ⟨⟩
      exact hregion.imp_right fun h => h.trans hregiong
    · rintro _ ⟨⟩
      refine ⟨g, rfl, ?_⟩
      rcases hcases with heq | hb
      · exact (heq.trans_le hregiong).trans (le_add_mul_abs hslack _)
      · obtain ⟨g', hg', hle⟩ := hab.le f hb
        exact hle.trans (bar_mono hslack (hab.rising g' hg') (hag g' hg'))
  skip := by
    intro a b levels region hab hskip
    obtain ⟨-, f, hf, hbound⟩ := skips_eq_true_iff.mp hskip
    obtain ⟨g, hg, hle⟩ := hab.le f hf
    refine skips_eq_true_iff.mpr ⟨hprune, g, hg, fun x hx => ?_⟩
    have hxf := hbound x hx
    rw [hexact, bar, zero_mul, add_zero] at hxf
    exact hxf.trans hle
  ahead := by
    intro a b b' levels region hlevels hregion hab hskip hscan
    obtain ⟨g, hg, hpass⟩ := passes_of_skips hlevels hregion hskip
    refine ⟨hab.rising, fun f hf => ⟨g, hg, ?_⟩⟩
    refine hscan.le_of_forall_le ?_ ?_ f hf
    · intro f' hf'
      obtain ⟨g', hg', hle⟩ := hab.le f' hf'
      obtain rfl := Option.some.inj (hg.symm.trans hg')
      exact hle
    · intro r hr
      obtain ⟨c, hc, rfl⟩ := List.mem_map.mp hr
      have hle := (hpass c hc).2
      rwa [Scalar.abs_eq] at hle

/-- The state in which a search of some levels ends under a configuration. -/
def answering (levels : List (PiecewiseMap ℚ)) (cfg : SolverConfig ℚ) : Search ℚ :=
  run (SearchRule.ofConfig cfg) levels { best := seedFind? levels cfg.seed }

/-- With pruning a search does no more than without, from any two finds. -/
theorem atMost_unpruned (hlevels : ∀ m ∈ levels, m.IsOver d)
    (cfg : SolverConfig ℚ) {cfg' : SolverConfig ℚ} (hprune : cfg'.prune = false) :
    (answering levels cfg).stats.AtMost (answering levels cfg').stats := by
  have hrule : (SearchRule.ofConfig cfg').prune = false := hprune
  have hspares := spares_of_unpruned d (SearchRule.ofConfig cfg) hrule
  have hstart : Trails (fun _ _ => True) { best := seedFind? levels cfg.seed }
      { best := seedFind? levels cfg'.seed } := ⟨trivial, .refl _⟩
  exact (hspares.run hlevels (fun _ _ => trivial) hstart).stats

theorem slack_ofConfig_exact {cfg : SolverConfig ℚ} (h : cfg.optimality = 100) :
    (SearchRule.ofConfig cfg).slack = 0 := by
  simp only [SearchRule.ofConfig, h]
  norm_num

theorem slack_ofConfig_nonneg {cfg : SolverConfig ℚ} (hpos : 0 < cfg.optimality)
    (hle : cfg.optimality ≤ 100) : 0 ≤ (SearchRule.ofConfig cfg).slack := by
  have hone : (1 : ℚ) ≤ 100 / cfg.optimality := by
    rw [one_le_div₀ hpos]
    exact hle
  simp only [SearchRule.ofConfig, Nat.cast_ofNat, Nat.cast_one, sub_nonneg]
  exact hone

/-- A pruned search whose first find outbids that of an exact pruned search
does no more, if values are not negative or there is no slack. -/
theorem atMost_of_outbids (hlevels : ∀ m ∈ levels, m.IsOver d)
    (cfg cfg' : SolverConfig ℚ) (hprune : cfg.prune = true)
    (hpos : 0 < cfg.optimality) (hle : cfg.optimality ≤ 100)
    (hexact : cfg'.optimality = 100)
    (hgood : ∀ c ∈ combinations levels,
      (SearchRule.ofConfig cfg).slack = 0 ∨ 0 ≤ c.2.maxVal)
    (hseeds : Outbids (SearchRule.ofConfig cfg).slack
      (seedFind? levels cfg.seed) (seedFind? levels cfg'.seed)) :
    (answering levels cfg).stats.AtMost (answering levels cfg').stats := by
  have hrule : (SearchRule.ofConfig cfg).prune = true := hprune
  have hspares := spares_of_outbids d hrule (slack_ofConfig_nonneg hpos hle)
    (slack_ofConfig_exact hexact)
  have hstart : Trails (Outbids (SearchRule.ofConfig cfg).slack)
      { best := seedFind? levels cfg.seed } { best := seedFind? levels cfg'.seed } :=
    ⟨hseeds, .refl _⟩
  exact (hspares.run hlevels hgood hstart).stats

end Search

/-! ## Requests compared -/

/-- No box has a negative value at a tuple it holds. -/
def PiecewiseMap.IsNonneg (m : PiecewiseMap ℚ) : Prop :=
  ∀ b ∈ m.boxes, ∀ tuple, b.contains tuple = true → 0 ≤ b.evalAs tuple m.degree

section Solve

variable {d : Domain ℚ} {maps levels : List (PiecewiseMap ℚ)}
  {positions tuple : List ℕ}

theorem Picks.nonneg {x : ℚ} (hnonneg : ∀ m ∈ levels, m.IsNonneg)
    (h : Picks tuple levels positions x) : 0 ≤ x := by
  induction h with
  | nil => exact le_refl 0
  | cons hb hbt _ ih =>
      obtain ⟨hm, hrest⟩ := List.forall_mem_cons.mp hnonneg
      exact add_nonneg (hm _ (Array.mem_of_getElem? hb) _ hbt) (ih hrest)

theorem Search.maxVal_nonneg (hlevels : ∀ m ∈ levels, m.IsOver d)
    (hnonneg : ∀ m ∈ levels, m.IsNonneg) :
    ∀ c ∈ combinations levels, 0 ≤ c.2.maxVal := by
  intro c hc
  exact (picks_maxPoint hlevels ((mem_combinations hlevels).mp hc)).nonneg hnonneg

theorem Search.seedFind?_nonneg (hlevels : ∀ m ∈ levels, m.IsOver d)
    (hnonneg : ∀ m ∈ levels, m.IsNonneg) {seed : Option (List ℕ)} {find : Find ℚ}
    (h : seedFind? levels seed = some find) : 0 ≤ find.value := by
  rcases seedFind?_cases hlevels seed with
    ⟨hnone, -⟩ | ⟨tuple, find', -, hfind, hcovered, hvalue, -⟩
  · rw [h] at hnone
    cases hnone
  · obtain rfl := Option.some.inj (h.symm.trans hfind)
    obtain ⟨positions, hpicks⟩ := exists_picks hlevels hcovered
    rw [hvalue]
    exact hpicks.nonneg hnonneg

/-- Pruning, a seed and slack only remove work.  At 100 percent a pruned search
with a seed visits no more leaves and meets no more boxes than one without, and
that no more than an unpruned search.  Where no box has a negative value, a
pruned search at any percentage does no more than one at 100 percent with the
same seed. -/
theorem solve_work_le (cfg : SolverConfig ℚ) (h : Searchable d maps cfg.order) :
    ∃ levels, cfg.order.levels? maps = some levels ∧ levels.Perm maps ∧
      (∀ request : SolverConfig ℚ, request.order = cfg.order →
        0 < request.optimality → request.optimality ≤ 100 →
        solve maps request = .ok (Search.answering levels request).solution?) ∧
      (Search.answering levels
          { cfg with prune := true, optimality := 100 }).stats.AtMost
        (Search.answering levels
          { cfg with prune := true, optimality := 100, seed := none }).stats ∧
      (∀ seed, (Search.answering levels
          { cfg with prune := true, optimality := 100, seed := none }).stats.AtMost
        (Search.answering levels
          { cfg with prune := false, optimality := 100, seed := seed }).stats) ∧
      ((∀ m ∈ maps, m.IsNonneg) → 0 < cfg.optimality → cfg.optimality ≤ 100 →
        (Search.answering levels { cfg with prune := true }).stats.AtMost
          (Search.answering levels
            { cfg with prune := true, optimality := 100 }).stats) := by
  obtain ⟨levels, hlevels, hperm, hne, hover⟩ := h.exists_levels
  have hhundred : (0 : ℚ) < 100 := by norm_num
  refine ⟨levels, hlevels, hperm, ?_, ?_, ?_, ?_⟩
  · intro request horder hpos hle
    rw [← horder] at h hlevels
    exact h.solve_eq request hpos hle hlevels
  · let strict : SolverConfig ℚ := { cfg with prune := true, optimality := 100 }
    have hexact : (SearchRule.ofConfig strict).slack = 0 :=
      Search.slack_ofConfig_exact rfl
    apply Search.atMost_of_outbids hover strict _ rfl hhundred (le_refl _) rfl
    · exact fun _ _ => Or.inl hexact
    · exact ⟨fun _ _ => Or.inl hexact, nofun⟩
  · exact fun seed => Search.atMost_unpruned hover _ rfl
  · intro hnonneg hpos hle
    have hnonneg' : ∀ m ∈ levels, m.IsNonneg := fun m hm =>
      hnonneg m (hperm.mem_iff.mp hm)
    apply Search.atMost_of_outbids hover { cfg with prune := true } _ rfl hpos hle rfl
    · exact fun c hc => Or.inr (Search.maxVal_nonneg hover hnonneg' c hc)
    · refine ⟨fun g hg => Or.inr (Search.seedFind?_nonneg hover hnonneg' hg), ?_⟩
      intro f hf
      exact ⟨f, hf, Search.le_add_mul_abs (Search.slack_ofConfig_nonneg hpos hle) _⟩

theorem PiecewiseMap.isNonneg_onSwitch {values : List (Interval × ℚ)}
    (h : ∀ v ∈ values, 0 ≤ v.2) : (onSwitch values).IsNonneg := by
  intro b hb tuple _
  simp only [onSwitch, ofBoxes, List.mem_toArray, List.mem_map] at hb
  obtain ⟨v, hv, rfl⟩ := hb
  exact h v hv

/-- On two maps over the switch slack, a seed and pruning together leave no
more work than there is without them. -/
theorem solve_work_le_switchPair :
    solve (switchPair 1 4) { optimality := 50, seed := some [1] } =
        .ok (Search.answering (switchPair 1 4)
          { optimality := 50, seed := some [1] }).solution? ∧
      (Search.answering (switchPair 1 4)
          { optimality := 50, seed := some [1] }).stats.AtMost
        (Search.answering (switchPair 1 4) { optimality := 100, prune := false }).stats := by
  obtain ⟨levels, hlevels, -, hsolve, hseed, hprune, hslack⟩ :=
    solve_work_le { optimality := 50, seed := some [1] } (searchable_switchPair 1 4)
  obtain rfl : switchPair 1 4 = levels := Option.some.inj hlevels
  have hnonneg : ∀ m ∈ switchPair 1 4, m.IsNonneg := by
    intro m hm
    simp only [switchPair, List.mem_cons, List.not_mem_nil, or_false] at hm
    rcases hm with rfl | rfl
    · exact PiecewiseMap.isNonneg_onSwitch (by simp)
    · exact PiecewiseMap.isNonneg_onSwitch (by simp)
  have hwork := hslack hnonneg (by norm_num) (by norm_num)
  exact ⟨hsolve _ rfl (by norm_num) (by norm_num),
    (hwork.trans hseed).trans (hprune none)⟩

end Solve

end IntervalProgramming
