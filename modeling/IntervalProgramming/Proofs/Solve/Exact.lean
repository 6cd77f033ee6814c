import IntervalProgramming.Proofs.Scalar.Maximum
import IntervalProgramming.Proofs.Solve.Scan

/-!
# Exact search

Without slack a combination may be passed over only if it does not beat the
best find, and then taking it into account changes nothing.  So with pruning or
without, an exact search keeps the lexicographically first combination of
greatest value, or the seed if no combination beats it.
-/

namespace IntervalProgramming

namespace Search

/-! ## Scans without slack -/

section Scans

variable {passes : Find ℚ → Box ℚ → Prop} {best last : Option (Find ℚ)}
  {regions : List (Box ℚ)}

/-- A scan that passes over nothing better than the best find ends as if it had
taken every region into account. -/
theorem Scan.eq_foldl
    (hpasses : ∀ find region, passes find region → region.maxVal ≤ find.value)
    (h : Scan passes best regions last) : last = regions.foldl improve best := by
  induction h with
  | nil best => rfl
  | visit _ ih => exact ih
  | @pass find last region regions hpass _ ih =>
      rw [List.foldl_cons, improve_some,
        if_neg (not_lt.mpr (hpasses find region hpass)), ih]

theorem improves_improve :
    Scalar.Improves improve (·.maxVal) (fun region => ⟨region.maxVal, region⟩) (·.value) where
  start := improve_none
  next := improve_some
  held_find _ := rfl

theorem foldl_improve_of_le {find : Find ℚ}
    (h : ∀ region ∈ regions, region.maxVal ≤ find.value) :
    regions.foldl improve (some find) = some find :=
  improves_improve.foldl_of_le h

/-- The first region of greatest value replaces every best find below it and is
not replaced itself. -/
theorem foldl_improve_of_first {before after : List (Box ℚ)} {region : Box ℚ}
    (hbest : ∀ f, best = some f → f.value < region.maxVal)
    (hbefore : ∀ r ∈ before, r.maxVal < region.maxVal)
    (hafter : ∀ r ∈ after, r.maxVal ≤ region.maxVal) :
    (before ++ region :: after).foldl improve best =
      some ⟨region.maxVal, region⟩ :=
  improves_improve.foldl_of_first hbest hbefore hafter

end Scans

/-! ## The first best combination -/

/-- A combination of greatest value, and the first one of that value in
lexicographic order. -/
structure IsFirstBest (levels : List (PiecewiseMap ℚ)) (positions : List ℕ)
    (region : Box ℚ) : Prop where
  region_eq : region? levels positions = some region
  best : ∀ {positions' r}, region? levels positions' = some r →
    r.maxVal ≤ region.maxVal
  first : ∀ {positions' r}, region? levels positions' = some r →
    r.maxVal = region.maxVal → positions = positions' ∨ positions < positions'

variable {d : Domain ℚ} {levels : List (PiecewiseMap ℚ)} {region : Box ℚ}
  {positions tuple : List ℕ}

theorem exists_isFirstBest (hlevels : ∀ m ∈ levels, m.IsOver d)
    (h : combinations levels ≠ []) :
    ∃ positions region, IsFirstBest levels positions region ∧
      ∀ best : Option (Find ℚ), (∀ f, best = some f → f.value < region.maxVal) →
        ((combinations levels).map Prod.snd).foldl improve best =
          some ⟨region.maxVal, region⟩ := by
  obtain ⟨before, ⟨positions, region⟩, after, hsplit, hbefore, hafter⟩ :=
    Scalar.exists_first_max (fun c : List ℕ × Box ℚ => c.2.maxVal) h
  have hsorted := pairwise_combinations hlevels
  rw [hsplit, List.pairwise_append, List.pairwise_cons] at hsorted
  have hmem : ∀ {positions' r}, region? levels positions' = some r →
      (positions', r) ∈ before ∨ (positions', r) = (positions, region) ∨
        (positions', r) ∈ after := by
    intro positions' r hr
    rw [← mem_combinations hlevels, hsplit, List.mem_append, List.mem_cons] at hr
    exact hr
  refine ⟨positions, region, ⟨?_, ?_, ?_⟩, ?_⟩
  · rw [← mem_combinations hlevels, hsplit]
    exact List.mem_append_right before List.mem_cons_self
  · intro positions' r hr
    rcases hmem hr with hr | hr | hr
    · exact (hbefore _ hr).le
    · rw [(Prod.mk.inj hr).2]
    · exact hafter _ hr
  · intro positions' r hr hvalue
    rcases hmem hr with hr | hr | hr
    · exact absurd hvalue (hbefore _ hr).ne
    · exact Or.inl (Prod.mk.inj hr).1.symm
    · exact Or.inr (hsorted.2.1.1 _ hr)
  · intro best hbest
    rw [hsplit, List.map_append, List.map_cons]
    refine foldl_improve_of_first hbest ?_ ?_
    · intro r hr
      obtain ⟨c, hc, rfl⟩ := List.mem_map.mp hr
      exact hbefore c hc
    · intro r hr
      obtain ⟨c, hc, rfl⟩ := List.mem_map.mp hr
      exact hafter c hc

/-- No tuple that all maps cover has a greater sum than the best combination. -/
theorem IsFirstBest.valueSum_le (hlevels : ∀ m ∈ levels, m.IsOver d)
    (hne : levels ≠ []) (h : IsFirstBest levels positions region)
    (hcovered : CoveredBy levels tuple) :
    valueSum levels tuple ≤ region.maxVal := by
  obtain ⟨positions', hpicks⟩ := exists_picks hlevels hcovered
  obtain ⟨r, hr, hmem, hvalue⟩ := exists_region?_of_picks hlevels hne hpicks
  rw [← hvalue]
  exact (Box.eval_le_maxVal hmem).trans (h.best hr)

/-! ## What an exact search finds -/

theorem run_eq_foldl (hlevels : ∀ m ∈ levels, m.IsOver d) {rule : SearchRule ℚ}
    (hrule : rule.slack = 0) (s : Search ℚ) :
    (run rule levels s).best =
      ((combinations levels).map Prod.snd).foldl improve s.best := by
  refine Scan.eq_foldl ?_ (scan_run rule hlevels s)
  rintro find region ⟨-, hle⟩
  rwa [hrule, zero_mul, add_zero] at hle

/-- A seed makes a find exactly if all maps cover it: the sum of their values,
at the seed. -/
theorem seedFind?_cases (hlevels : ∀ m ∈ levels, m.IsOver d)
    (seed : Option (List ℕ)) :
    (seedFind? levels seed = none ∧
        ∀ tuple, seed = some tuple → ¬ CoveredBy levels tuple) ∨
      ∃ tuple find, seed = some tuple ∧ seedFind? levels seed = some find ∧
        CoveredBy levels tuple ∧ find.value = valueSum levels tuple ∧
        find.region.maxPoint = tuple := by
  cases seed with
  | none => exact Or.inl ⟨rfl, nofun⟩
  | some tuple =>
      cases hvalue : valueAt? levels tuple with
      | none =>
          refine Or.inl ⟨?_, ?_⟩
          · simp only [seedFind?, Option.bind_eq_bind, Option.bind_some, hvalue,
              Option.bind_none]
          · rintro _ ⟨⟩ hcovered
            have hsome := (valueAt?_eq_some_iff hlevels).mpr ⟨hcovered, rfl⟩
            rw [hvalue] at hsome
            cases hsome
      | some x =>
          obtain ⟨hcovered, hx⟩ := (valueAt?_eq_some_iff hlevels).mp hvalue
          refine Or.inr
            ⟨tuple, ⟨x, { (Box.ofPoint tuple : Box ℚ) with intercept := x }⟩,
              rfl, ?_, hcovered, hx, Box.maxPoint_ofPoint tuple x⟩
          simp only [seedFind?, Option.bind_eq_bind, Option.bind_some, hvalue,
            Option.pure_def]

theorem combinations_eq_nil_iff (hlevels : ∀ m ∈ levels, m.IsOver d) :
    combinations levels = [] ↔ ∀ positions, region? levels positions = none := by
  rw [List.eq_nil_iff_forall_not_mem]
  constructor
  · intro h positions
    rw [Option.eq_none_iff_forall_ne_some]
    intro r hr
    exact h (positions, r) ((mem_combinations hlevels).mpr hr)
  · rintro h ⟨positions, r⟩ hr
    have hr := (mem_combinations hlevels).mp hr
    rw [h] at hr
    cases hr

theorem not_coveredBy (hlevels : ∀ m ∈ levels, m.IsOver d) (hne : levels ≠ [])
    (h : ∀ positions, region? levels positions = none) (tuple : List ℕ) :
    ¬ CoveredBy levels tuple := by
  intro hcovered
  obtain ⟨positions, hpicks⟩ := exists_picks hlevels hcovered
  obtain ⟨r, hr, -⟩ := exists_region?_of_picks hlevels hne hpicks
  rw [h] at hr
  cases hr

/-- An exact search finds nothing if there is no combination.  Otherwise it
finds the first best combination, or the seed if that has the same value. -/
theorem run_exact (hlevels : ∀ m ∈ levels, m.IsOver d) (hne : levels ≠ [])
    (seed : Option (List ℕ)) :
    (∀ positions, region? levels positions = none) ∧
        (∀ rule : SearchRule ℚ, rule.slack = 0 →
          (run rule levels { best := seedFind? levels seed }).best = none) ∨
      ∃ positions region find, IsFirstBest levels positions region ∧
        find.value = region.maxVal ∧
        ((∃ tuple, seed = some tuple ∧ CoveredBy levels tuple ∧
            valueSum levels tuple = region.maxVal ∧ find.region.maxPoint = tuple) ∨
          (∀ tuple, seed = some tuple → CoveredBy levels tuple →
            valueSum levels tuple ≠ region.maxVal) ∧ find.region = region) ∧
        ∀ rule : SearchRule ℚ, rule.slack = 0 →
          (run rule levels { best := seedFind? levels seed }).best = some find := by
  by_cases hnil : combinations levels = []
  · left
    have hnone := (combinations_eq_nil_iff hlevels).mp hnil
    refine ⟨hnone, fun rule hrule => ?_⟩
    rw [run_eq_foldl hlevels hrule, hnil]
    rcases seedFind?_cases hlevels seed with ⟨hseed, -⟩ | ⟨tuple, _, -, -, hcovered, -⟩
    · exact hseed
    · exact absurd hcovered (not_coveredBy hlevels hne hnone tuple)
  · right
    obtain ⟨positions, region, hbest, hfold⟩ := exists_isFirstBest hlevels hnil
    rcases seedFind?_cases hlevels seed with
      ⟨hseed, huncovered⟩ | ⟨tuple, find, hseed, hfind, hcovered, hvalue, hpoint⟩
    · refine ⟨positions, region, ⟨region.maxVal, region⟩, hbest, rfl, ?_, ?_⟩
      · exact Or.inr ⟨fun t ht hc => absurd hc (huncovered t ht), rfl⟩
      · intro rule hrule
        rw [run_eq_foldl hlevels hrule]
        refine hfold _ fun f hf => ?_
        rw [hseed] at hf
        cases hf
    · have hle := hbest.valueSum_le hlevels hne hcovered
      rcases hle.lt_or_eq with hlt | heq
      · -- The seed is beaten by the first best combination.
        refine ⟨positions, region, ⟨region.maxVal, region⟩, hbest, rfl, ?_, ?_⟩
        · refine Or.inr ⟨fun t ht _ => ?_, rfl⟩
          obtain rfl := Option.some.inj (hseed.symm.trans ht)
          exact hlt.ne
        · intro rule hrule
          rw [run_eq_foldl hlevels hrule]
          refine hfold _ fun f hf => ?_
          obtain rfl := Option.some.inj (hfind.symm.trans hf)
          rwa [hvalue]
      · -- The seed has the greatest value and stays.
        refine ⟨positions, region, find, hbest, hvalue.trans heq, ?_, ?_⟩
        · exact Or.inl ⟨tuple, hseed, hcovered, heq, hpoint⟩
        · intro rule hrule
          rw [run_eq_foldl hlevels hrule, hfind]
          refine foldl_improve_of_le fun r hr => ?_
          obtain ⟨⟨positions', r⟩, hc, rfl⟩ := List.mem_map.mp hr
          rw [hvalue, heq]
          exact hbest.best ((mem_combinations hlevels).mp hc)

end Search

/-! ## The answer to an exact request -/

section Solve

variable {d : Domain ℚ} {maps levels : List (PiecewiseMap ℚ)}

theorem Searchable.exists_levels {order : PriorityOrder}
    (h : Searchable d maps order) :
    ∃ levels, order.levels? maps = some levels ∧ levels.Perm maps ∧
      levels ≠ [] ∧ ∀ m ∈ levels, m.IsOver d := by
  obtain ⟨levels, hlevels, hperm⟩ := PriorityOrder.exists_levels? h.valid
  refine ⟨levels, hlevels, hperm, ?_, fun m hm => h.isOver m (hperm.mem_iff.mp hm)⟩
  rintro rfl
  exact h.ne_nil hperm.nil_eq.symm

theorem Searchable.solve_eq (cfg : SolverConfig ℚ)
    (h : Searchable d maps cfg.order)
    (hpos : 0 < cfg.optimality) (hle : cfg.optimality ≤ 100)
    (hlevels : cfg.order.levels? maps = some levels) :
    solve maps cfg = .ok (Search.run (SearchRule.ofConfig cfg) levels
      { best := Search.seedFind? levels cfg.seed }).solution? :=
  solve_eq_run h.ne_nil h.nonempty (fun m hm => (h.isOver m hm).domain) hpos hle hlevels

theorem Searchable.exists_solve_eq (cfg : SolverConfig ℚ)
    (h : Searchable d maps cfg.order)
    (hexact : cfg.optimality = 100)
    (hlevels : cfg.order.levels? maps = some levels) :
    ∃ rule : SearchRule ℚ, rule.slack = 0 ∧ solve maps cfg =
      .ok (Search.run rule levels
        { best := Search.seedFind? levels cfg.seed }).solution? := by
  refine ⟨SearchRule.ofConfig cfg, ?_, h.solve_eq cfg ?_ hexact.le hlevels⟩
  · simp only [SearchRule.ofConfig, hexact]
    norm_num
  · rw [hexact]
    norm_num

/-- An exact search agrees with listing all combinations, with pruning or
without.  It finds nothing if there is no combination.  Otherwise its value is
the greatest value of a combination, and its point is the best point of the
first combination of that value, or the seed if the maps cover the seed and
their values there have that sum. -/
theorem solve_eq_firstBest (cfg : SolverConfig ℚ)
    (h : Searchable d maps cfg.order)
    (hexact : cfg.optimality = 100) :
    ∃ levels, cfg.order.levels? maps = some levels ∧ levels.Perm maps ∧
      ((∀ positions, Search.region? levels positions = none) ∧
          (∀ prune, solve maps { cfg with prune := prune } = .ok none) ∨
        ∃ positions region point, Search.IsFirstBest levels positions region ∧
          ((∃ tuple, cfg.seed = some tuple ∧ CoveredBy maps tuple ∧
              valueSum maps tuple = region.maxVal ∧ point = tuple) ∨
            (∀ tuple, cfg.seed = some tuple → CoveredBy maps tuple →
              valueSum maps tuple ≠ region.maxVal) ∧ point = region.maxPoint) ∧
          ∀ prune, ∃ stats, solve maps { cfg with prune := prune } =
            .ok (some ⟨point, region.maxVal, stats⟩)) := by
  obtain ⟨levels, hlevels, hperm, hne, hover⟩ := h.exists_levels
  refine ⟨levels, hlevels, hperm, ?_⟩
  have hsolve := fun prune =>
    h.exists_solve_eq { cfg with prune := prune } hexact hlevels
  rcases Search.run_exact hover hne cfg.seed with
    ⟨hnone, hbest⟩ | ⟨positions, region, find, hfirst, hvalue, hpoint, hbest⟩
  · refine Or.inl ⟨hnone, fun prune => ?_⟩
    obtain ⟨rule, hrule, hsolve⟩ := hsolve prune
    rw [hsolve, Search.solution?, hbest rule hrule]
    rfl
  · refine Or.inr ⟨positions, region, find.region.maxPoint, hfirst, ?_, ?_⟩
    · rcases hpoint with ⟨tuple, hseed, hcovered, hsum, hpoint⟩ | ⟨hother, hregion⟩
      · refine Or.inl ⟨tuple, hseed, (CoveredBy.perm hperm).mp hcovered, ?_, hpoint⟩
        rwa [← valueSum_perm hperm]
      · refine Or.inr ⟨fun tuple hseed hcovered => ?_, by rw [hregion]⟩
        rw [← valueSum_perm hperm]
        exact hother tuple hseed ((CoveredBy.perm hperm).mpr hcovered)
    · intro prune
      obtain ⟨rule, hrule, hsolve⟩ := hsolve prune
      rw [hsolve, Search.solution?, hbest rule hrule, ← hvalue]
      exact ⟨_, rfl⟩

/-- With pruning and without, the same answer is found on two maps over the
switch from a seed that is not best. -/
theorem solve_eq_firstBest_switchPair :
    ∃ s t, solve (switchPair 1 4) { prune := true, seed := some [0] } =
        .ok (some s) ∧
      solve (switchPair 1 4) { prune := false, seed := some [0] } =
        .ok (some t) ∧ s.point = t.point ∧ s.value = t.value := by
  obtain ⟨levels, hlevels, -, hcases⟩ :=
    solve_eq_firstBest { seed := some [0] } (searchable_switchPair 1 4) rfl
  obtain rfl : switchPair 1 4 = levels := Option.some.inj hlevels
  rcases hcases with ⟨hnone, -⟩ | ⟨_, region, point, -, -, hsolve⟩
  · exact (Option.some_ne_none _ (hnone [0, 0])).elim
  · obtain ⟨stats, hpruned⟩ := hsolve true
    obtain ⟨stats', hplain⟩ := hsolve false
    exact ⟨_, _, hpruned, hplain, rfl, rfl⟩

/-- On maps without overlaps an exact search agrees with trying all tuples: it
finds nothing exactly if no tuple is covered by every map, and otherwise a
covered tuple of greatest sum together with that sum. -/
theorem solve_isGreatest (cfg : SolverConfig ℚ)
    (h : Searchable d maps cfg.order)
    (hdisjoint : ∀ m ∈ maps, m.IsDisjoint) (hexact : cfg.optimality = 100) :
    (solve maps cfg = .ok none ↔ ∀ tuple, ¬ CoveredBy maps tuple) ∧
      ((∃ tuple, CoveredBy maps tuple) →
        ∃ s, solve maps cfg = .ok (some s) ∧ CoveredBy maps s.point ∧
          valueSum maps s.point = s.value ∧
          ∀ tuple, CoveredBy maps tuple → valueSum maps tuple ≤ s.value) := by
  obtain ⟨levels, hlevels, hperm, hne, hover⟩ := h.exists_levels
  have hdisjoint' : ∀ m ∈ levels, m.IsDisjoint := fun m hm =>
    hdisjoint m (hperm.mem_iff.mp hm)
  obtain ⟨rule, hrule, hsolve⟩ := h.exists_solve_eq cfg hexact hlevels
  simp only [← valueSum_perm hperm, ← CoveredBy.perm hperm, hsolve, Search.solution?]
  rcases Search.run_exact hover hne cfg.seed with
    ⟨hnone, hbest⟩ | ⟨positions, region, find, hfirst, hvalue, hpoint, hbest⟩
  · have hnot := Search.not_coveredBy hover hne hnone
    rw [hbest rule hrule]
    exact ⟨iff_of_true rfl hnot,
      fun ⟨tuple, hcovered⟩ => absurd hcovered (hnot tuple)⟩
  · rw [hbest rule hrule]
    have hanswer : CoveredBy levels find.region.maxPoint ∧
        valueSum levels find.region.maxPoint = find.value := by
      rw [hvalue]
      rcases hpoint with ⟨tuple, -, hcovered, hsum, rfl⟩ | ⟨-, hregion⟩
      · exact ⟨hcovered, hsum⟩
      · have hpicks := Search.picks_maxPoint hover hfirst.region_eq
        rw [hregion]
        exact ⟨hpicks.covered, (hpicks.eq_valueSum hover hdisjoint').symm⟩
    refine ⟨iff_of_false nofun fun hnot => hnot _ hanswer.1, fun _ => ?_⟩
    refine ⟨_, rfl, hanswer.1, hanswer.2, fun tuple hcovered => ?_⟩
    exact (hfirst.valueSum_le hover hne hcovered).trans hvalue.ge

/-- The value found on two maps over the switch is at least their sum at the
second index. -/
theorem solve_isGreatest_switchPair :
    ∃ s, solve (switchPair 1 4) { seed := some [0] } = .ok (some s) ∧
      valueSum (switchPair 1 4) [1] ≤ s.value := by
  have hcovered := coveredBy_switchPair 1 4
  obtain ⟨s, hsolve, -, -, hall⟩ := (solve_isGreatest
    { seed := some [0] } (searchable_switchPair 1 4) (isDisjoint_switchPair 1 4)
    rfl).2 ⟨[1], hcovered⟩
  exact ⟨s, hsolve, hall [1] hcovered⟩

end Solve

end IntervalProgramming
