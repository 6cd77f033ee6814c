import Mathlib.Algebra.Order.Field.Basic
import Mathlib.Tactic.FieldSimp
import IntervalProgramming.Proofs.Solve.Exact

/-!
# Search with slack

Below 100 percent a branch is skipped if it does not beat the best find by the
slack, which is a multiple of the size of that find.  From a find that is not
negative, nothing that is passed over can exceed the promised percentage.  From
a negative find the slack reaches beyond zero once the percentage is 50 or
less, and then a branch of great value may be skipped.
-/

namespace IntervalProgramming

namespace Search

/-- The value of the first find of a scan: that of the find it starts from, or
the greatest value of the first region. -/
def firstValue? (best : Option (Find ℚ)) (regions : List (Box ℚ)) : Option ℚ :=
  match best with
  | some find => some find.value
  | none => regions.head?.map (·.maxVal)

/-- The value of the first find of a search. -/
def firstFind? (levels : List (PiecewiseMap ℚ)) (seed : Option (List ℕ)) :
    Option ℚ :=
  firstValue? (seedFind? levels seed) ((combinations levels).map Prod.snd)

/-- A value is accounted for by some best find between `low` and `high`: it
does not beat that find by the slack. -/
def Accounted (slack low high v : ℚ) : Prop :=
  ∃ x, low ≤ x ∧ x ≤ high ∧ v ≤ x + slack * |x|

theorem Accounted.mono {slack low low' high v : ℚ} (hlow : low ≤ low')
    (h : Accounted slack low' high v) : Accounted slack low high v := by
  obtain ⟨x, hx, hhigh, hv⟩ := h
  exact ⟨x, hlow.trans hx, hhigh, hv⟩

theorem le_add_mul_abs {slack : ℚ} (hslack : 0 ≤ slack) (x : ℚ) :
    x ≤ x + slack * |x| :=
  le_add_of_nonneg_right (mul_nonneg hslack (abs_nonneg x))

section Scans

variable {passes : Find ℚ → Box ℚ → Prop} {best last : Option (Find ℚ)}
  {regions : List (Box ℚ)} {slack : ℚ}

/-- Taking a region into account leaves a find that is at least the region and
the find before, and is one of them. -/
theorem exists_improve (best : Option (Find ℚ)) (region : Box ℚ) :
    ∃ f, improve best region = some f ∧ region.maxVal ≤ f.value ∧
      (∀ g, best = some g → g.value ≤ f.value) ∧
      (f.value = region.maxVal ∨ best = some f) := by
  cases best with
  | none => exact ⟨_, improve_none region, le_refl _, nofun, Or.inl rfl⟩
  | some g =>
      rw [improve_some]
      split
      · rename_i hlt
        refine ⟨_, rfl, le_refl _, ?_, Or.inl rfl⟩
        rintro _ ⟨⟩
        exact hlt.le
      · rename_i hge
        refine ⟨g, rfl, not_lt.mp hge, ?_, Or.inr rfl⟩
        rintro _ ⟨⟩
        exact le_refl _

/-- From a find on, every region of a scan is accounted for by the finds in
between. -/
theorem Scan.accounted_of_find (hslack : 0 ≤ slack)
    (hpasses : ∀ find region, passes find region →
      region.maxVal ≤ find.value + slack * |find.value|)
    {find : Find ℚ} (h : Scan passes (some find) regions last) :
    ∃ f, last = some f ∧ find.value ≤ f.value ∧
      ∀ region ∈ regions, Accounted slack find.value f.value region.maxVal := by
  generalize hbest : some find = best at h
  induction h generalizing find with
  | nil best => exact ⟨find, hbest.symm, le_refl _, nofun⟩
  | @visit best last region regions h ih =>
      subst best
      obtain ⟨g, hg, hregion, hbest, -⟩ := exists_improve (some find) region
      have hfind := hbest find rfl
      obtain ⟨f, hf, hle, hall⟩ := ih hg.symm
      refine ⟨f, hf, hfind.trans hle, List.forall_mem_cons.mpr ⟨?_, ?_⟩⟩
      · exact ⟨g.value, hfind, hle, hregion.trans (le_add_mul_abs hslack _)⟩
      · exact fun r hr => (hall r hr).mono hfind
  | @pass find' last region regions hpass h ih =>
      obtain rfl := Option.some.inj hbest
      obtain ⟨f, hf, hle, hall⟩ := ih rfl
      refine ⟨f, hf, hle, List.forall_mem_cons.mpr ⟨?_, hall⟩⟩
      exact ⟨find.value, le_refl _, hle, hpasses find region hpass⟩

/-- Every region of a scan is accounted for by a find that is not below the
first. -/
theorem Scan.accounted (hslack : 0 ≤ slack)
    (hpasses : ∀ find region, passes find region →
      region.maxVal ≤ find.value + slack * |find.value|)
    {first : ℚ} (hfirst : firstValue? best regions = some first)
    (h : Scan passes best regions last) :
    ∃ f, last = some f ∧ first ≤ f.value ∧
      ∀ region ∈ regions, Accounted slack first f.value region.maxVal := by
  cases best with
  | some find =>
      obtain rfl := Option.some.inj hfirst
      exact h.accounted_of_find hslack hpasses
  | none =>
      -- Before the first find no region is passed over.
      cases h with
      | nil => cases hfirst
      | @visit _ _ region regions h =>
          obtain rfl : region.maxVal = first := Option.some.inj hfirst
          obtain ⟨f, hf, hle, hall⟩ := h.accounted_of_find hslack hpasses
          refine ⟨f, hf, hle, List.forall_mem_cons.mpr ⟨?_, hall⟩⟩
          exact ⟨region.maxVal, le_refl _, hle, le_add_mul_abs hslack _⟩

/-- Taking every region into account ends with the first find or with a
region. -/
theorem value_of_foldl_improve {first : ℚ} {find : Find ℚ}
    (hfirst : firstValue? best regions = some first)
    (h : regions.foldl improve best = some find) :
    find.value = first ∨ ∃ region ∈ regions, find.value = region.maxVal := by
  have hfold : ∀ (regions : List (Box ℚ)) (best : Option (Find ℚ)),
      regions.foldl improve best = some find →
        best = some find ∨ ∃ region ∈ regions, find.value = region.maxVal := by
    intro regions
    induction regions with
    | nil => exact fun best h => Or.inl h
    | cons region regions ih =>
        intro best h
        rcases ih _ h with himprove | ⟨r, hr, hvalue⟩
        · obtain ⟨f, hf, -, -, hcases⟩ := exists_improve best region
          obtain rfl := Option.some.inj (hf.symm.trans himprove)
          rcases hcases with hvalue | hbest
          · exact Or.inr ⟨region, List.mem_cons_self, hvalue⟩
          · exact Or.inl hbest
        · exact Or.inr ⟨r, List.mem_cons_of_mem region hr, hvalue⟩
  rcases hfold regions best h with rfl | hregion
  · exact Or.inl (Option.some.inj hfirst)
  · exact Or.inr hregion

end Scans

/-- What is accounted for by finds that are not negative, or at more than half
the optimum, is within the percentage of the last find. -/
theorem percent_le {pct first high v : ℚ} (hpos : 0 < pct)
    (h : 50 < pct ∨ 0 ≤ first) (hv : 0 ≤ v)
    (haccounted : Accounted (100 / pct - 1) first high v) :
    pct / 100 * v ≤ high := by
  obtain ⟨x, hfirst, hhigh, hle⟩ := haccounted
  have hunit : pct * (100 / pct) = 100 := by field_simp
  rcases le_or_gt 0 x with hx | hx
  · rw [abs_of_nonneg hx] at hle
    have hscaled : pct * v ≤ 100 * x := by
      calc pct * v ≤ pct * (x + (100 / pct - 1) * x) :=
            mul_le_mul_of_nonneg_left hle hpos.le
        _ = pct * (100 / pct) * x := by ring
        _ = 100 * x := by rw [hunit]
    linarith
  · -- A negative find accounts for no value from zero on.
    have hpct : 50 < pct := h.resolve_right fun h0 => absurd (h0.trans hfirst) hx.not_ge
    rw [abs_of_neg hx] at hle
    have hslack : 100 / pct < 2 := by
      rw [div_lt_iff₀ hpos]
      linarith
    nlinarith

/-- Under the condition a search with slack finds at least the percentage of
what taking every combination into account finds. -/
theorem exists_run_percent {d : Domain ℚ} {levels : List (PiecewiseMap ℚ)}
    (rule : SearchRule ℚ) (s : Search ℚ) {pct first : ℚ} {find : Find ℚ}
    (hlevels : ∀ m ∈ levels, m.IsOver d) (hpos : 0 < pct) (hle : pct ≤ 100)
    (hrule : rule.slack = 100 / pct - 1)
    (hfirst : firstValue? s.best ((combinations levels).map Prod.snd) = some first)
    (hcond : 50 < pct ∨ 0 ≤ first)
    (hfind : ((combinations levels).map Prod.snd).foldl improve s.best = some find)
    (hnonneg : 0 ≤ find.value) :
    ∃ last, (run rule levels s).best = some last ∧
      pct / 100 * find.value ≤ last.value := by
  have hslack : 0 ≤ 100 / pct - 1 := by
    rw [sub_nonneg, one_le_div₀ hpos]
    exact hle
  have hpasses : ∀ find region, rule.Passes find region →
      region.maxVal ≤ find.value + (100 / pct - 1) * |find.value| := by
    intro find region hpass
    rw [← hrule, ← Scalar.abs_eq]
    exact hpass.2
  obtain ⟨last, hlast, hfirstle, hall⟩ :=
    (scan_run rule hlevels s).accounted hslack hpasses hfirst
  refine ⟨last, hlast, percent_le hpos hcond hnonneg ?_⟩
  rcases value_of_foldl_improve hfirst hfind with hvalue | ⟨region, hregion, hvalue⟩
  · rw [hvalue]
    exact ⟨first, le_refl _, hfirstle, le_add_mul_abs hslack first⟩
  · rw [hvalue]
    exact hall region hregion

/-! ## A branch that is skipped -/

theorem maxVal_onSwitch (i : Interval) (x : ℚ) : (Box.onSwitch i x).maxVal = x := by
  rw [Box.maxVal_eq]
  simp [Box.onSwitch, topSum]

theorem completionBound_onSwitch (y : ℚ) :
    completionBound [.zeroOnSwitch] (Box.onSwitch (Interval.point 1) y) =
      some y := by
  have hsum : completionBound [.zeroOnSwitch] (Box.onSwitch (Interval.point 1) y) =
      some ((Box.onSwitch (Interval.point 1) y).maxVal + 0) := rfl
  rw [hsum, add_zero, maxVal_onSwitch]

/-- From a first find `x` a combination of value `y` is skipped as far as the
slack reaches. -/
theorem best_run_switchPair {rule : SearchRule ℚ} (hprune : rule.prune = true)
    {x y : ℚ} (hy : y ≤ x + rule.slack * |x|) :
    (run rule (switchPair x y) {}).best =
      some ⟨x, Box.onSwitch (Interval.point 0) x⟩ := by
  have hrun : run rule (switchPair x y) {} =
      descend rule [.zeroOnSwitch] (Box.onSwitch (Interval.point 1) y)
        (descend rule [.zeroOnSwitch] (Box.onSwitch (Interval.point 0) x) {}) :=
    rfl
  -- The first branch is searched, since there is no find yet.
  have hfirst : (descend rule [.zeroOnSwitch]
      (Box.onSwitch (Interval.point 0) x) {}).best =
        improve none (Box.onSwitch (Interval.point 0) (x + 0)) := rfl
  rw [add_zero, improve_none, maxVal_onSwitch] at hfirst
  have hskips : rule.skips (some ⟨x, Box.onSwitch (Interval.point 0) x⟩)
      [.zeroOnSwitch] (Box.onSwitch (Interval.point 1) y) = true := by
    simp only [SearchRule.skips, SearchRule.beats, completionBound_onSwitch,
      hprune, Scalar.abs_eq, Bool.true_and, Bool.not_eq_true',
      decide_eq_false_iff_not, not_lt]
    exact hy
  rw [hrun]
  generalize descend rule [.zeroOnSwitch] (Box.onSwitch (Interval.point 0) x) {} = s
    at hfirst
  unfold descend
  rw [hfirst, if_pos hskips, notePruned, hfirst]

theorem firstFind?_switchPair (x y : ℚ) :
    firstFind? (switchPair x y) none = some x := by
  have hhead : firstFind? (switchPair x y) none =
      some (Box.onSwitch (Interval.point 0) (x + 0)).maxVal := rfl
  rw [hhead, add_zero, maxVal_onSwitch]

theorem best_run_switchPair_exact {rule : SearchRule ℚ} (hrule : rule.slack = 0)
    {x y : ℚ} (hxy : x < y) :
    (run rule (switchPair x y) {}).best =
      some ⟨y, Box.onSwitch (Interval.point 1) y⟩ := by
  have hcombinations : (combinations (switchPair x y)).map Prod.snd =
      [Box.onSwitch (Interval.point 0) (x + 0),
        Box.onSwitch (Interval.point 1) (y + 0)] := rfl
  rw [run_eq_foldl (searchable_switchPair x y).isOver hrule, hcombinations,
    add_zero, add_zero, List.foldl_cons, List.foldl_cons, improve_none,
    improve_some, maxVal_onSwitch, maxVal_onSwitch, if_pos hxy]
  rfl

end Search

/-! ## The promise and its condition -/

/-- Whether a pruned search at a percentage finds at least that much of what
the plain exact search finds, unless the latter is negative. -/
def FindsPercent (maps : List (PiecewiseMap ℚ)) (order : PriorityOrder)
    (seed : Option (List ℕ)) (pct : ℚ) : Prop :=
  ∀ s, solve maps { order := order, prune := false, optimality := 100, seed := seed } =
      .ok (some s) → 0 ≤ s.value →
    ∃ t, solve maps { order := order, prune := true, optimality := pct, seed := seed } =
        .ok (some t) ∧ pct / 100 * s.value ≤ t.value

section Solve

variable {d : Domain ℚ} {maps levels : List (PiecewiseMap ℚ)}
  {order : PriorityOrder} {seed : Option (List ℕ)} {pct first : ℚ}

/-- Above 50 percent, or from a first find that is not negative, a search keeps
its promise. -/
theorem findsPercent_of_first (h : Searchable d maps order) (hpos : 0 < pct)
    (hle : pct ≤ 100) (hlevels : order.levels? maps = some levels)
    (hfirst : Search.firstFind? levels seed = some first)
    (hcond : 50 < pct ∨ 0 ≤ first) : FindsPercent maps order seed pct := by
  intro s hs hnonneg
  obtain ⟨levels', hlevels', -, -, hover⟩ := h.exists_levels
  obtain rfl := Option.some.inj (hlevels.symm.trans hlevels')
  obtain ⟨rule, hrule, hplain⟩ := h.exists_solve_eq
    { order := order, prune := false, optimality := 100, seed := seed } rfl hlevels
  rw [hplain, Except.ok.injEq, Search.solution?, Option.map_eq_some_iff] at hs
  obtain ⟨find, hfind, rfl⟩ := hs
  rw [Search.run_eq_foldl hover hrule] at hfind
  have hrelaxed := h.solve_eq
    { order := order, prune := true, optimality := pct, seed := seed }
    hpos hle hlevels
  obtain ⟨last, hlast, hpercent⟩ := Search.exists_run_percent
    (SearchRule.ofConfig
      { order := order, prune := true, optimality := pct, seed := seed })
    { best := Search.seedFind? levels seed }
    hover hpos hle (by simp [SearchRule.ofConfig]) hfirst hcond hfind hnonneg
  rw [hrelaxed, Search.solution?, hlast]
  exact ⟨_, rfl, hpercent⟩

/-- A search with slack that starts from a find in reach of the optimum keeps
that find. -/
theorem exists_solve_switchPair (pct x y : ℚ) (hpos : 0 < pct)
    (hle : pct ≤ 100) (hxy : x < y) (hy : y ≤ x + (100 / pct - 1) * |x|) :
    ∃ s t, solve (switchPair x y)
        { order := .asGiven, prune := false, optimality := 100, seed := none } =
          .ok (some s) ∧ s.value = y ∧
      solve (switchPair x y)
        { order := .asGiven, prune := true, optimality := pct, seed := none } =
          .ok (some t) ∧ t.value = x := by
  have h := searchable_switchPair x y
  have hlevels : PriorityOrder.asGiven.levels? (switchPair x y) =
      some (switchPair x y) := rfl
  obtain ⟨rule, hrule, hplain⟩ := h.exists_solve_eq
    { order := .asGiven, prune := false, optimality := 100, seed := none }
    rfl hlevels
  have hplain : solve (switchPair x y) _ =
      .ok (Search.run rule (switchPair x y) {}).solution? := hplain
  have hrelaxed : solve (switchPair x y) _ = .ok (Search.run (SearchRule.ofConfig
      { order := .asGiven, prune := true, optimality := pct, seed := none })
        (switchPair x y) {}).solution? := h.solve_eq _ hpos hle hlevels
  rw [hplain, hrelaxed, Search.solution?, Search.solution?,
    Search.best_run_switchPair_exact hrule hxy, Search.best_run_switchPair rfl]
  · exact ⟨_, _, rfl, rfl, rfl, rfl⟩
  · simpa [SearchRule.ofConfig] using hy

/-- A search at a percentage of the optimum is sure to find that percentage
exactly if more than 50 percent are asked for or the first find is not
negative. -/
theorem findsPercent_iff (hpos : 0 < pct) (hle : pct ≤ 100) :
    (∀ (d : Domain ℚ) (maps levels : List (PiecewiseMap ℚ))
        (order : PriorityOrder) (seed : Option (List ℕ)),
        Searchable d maps order → order.levels? maps = some levels →
          Search.firstFind? levels seed = some first →
            FindsPercent maps order seed pct) ↔
      50 < pct ∨ 0 ≤ first := by
  constructor
  · intro hall
    by_contra hnot
    rw [not_or, not_lt, not_le] at hnot
    obtain ⟨hpct, hfirst⟩ := hnot
    -- The greatest value in reach of the first find is not negative.
    set y := first + (100 / pct - 1) * |first| with hy
    have hslack : 2 ≤ 100 / pct := by
      rw [le_div_iff₀ hpos]
      linarith
    have hnonneg : 0 ≤ y := by
      rw [hy, abs_of_neg hfirst]
      nlinarith
    obtain ⟨s, t, hplain, hs, hrelaxed, ht⟩ :=
      exists_solve_switchPair pct first y hpos hle (hfirst.trans_le hnonneg) hy.le
    obtain ⟨t', ht', hpercent⟩ := hall Domain.switch (switchPair first y) _ .asGiven
      none (searchable_switchPair first y) rfl (Search.firstFind?_switchPair first y) s hplain
        (hs ▸ hnonneg)
    obtain rfl : t = t' := by
      have heq := hrelaxed.symm.trans ht'
      simpa using heq
    rw [hs, ht] at hpercent
    have hscaled : 0 ≤ pct / 100 * y := by positivity
    linarith
  · intro hcond d maps levels order seed h hlevels hfirst
    exact findsPercent_of_first h hpos hle hlevels hfirst hcond

/-- At 75 percent a search keeps its promise also from a negative find. -/
theorem findsPercent_switchPair_75 :
    FindsPercent (switchPair (-10) 80) .asGiven none 75 :=
  (findsPercent_iff (by norm_num) (by norm_num)).mpr (Or.inl (by norm_num))
    Domain.switch _ _ .asGiven none (searchable_switchPair (-10) 80) rfl
    (Search.firstFind?_switchPair (-10) 80)

/-- At 10 percent a search keeps the value -10 of its first find although 80 is
possible. -/
theorem solve_ten_percent_negative :
    Searchable Domain.switch (switchPair (-10) 80) .asGiven ∧
    ∃ s t, solve (switchPair (-10) 80)
        { order := .asGiven, prune := false, optimality := 100, seed := none } =
          .ok (some s) ∧ s.value = 80 ∧
      solve (switchPair (-10) 80)
        { order := .asGiven, prune := true, optimality := 10, seed := none } =
          .ok (some t) ∧ t.value = -10 ∧ ¬ 10 / 100 * s.value ≤ t.value := by
  obtain ⟨s, t, hplain, hs, hrelaxed, ht⟩ := exists_solve_switchPair
    10 (-10) 80 (by norm_num) (by norm_num) (by norm_num)
    (by norm_num [abs_of_neg])
  refine ⟨searchable_switchPair (-10) 80, s, t, hplain, hs, hrelaxed, ht, ?_⟩
  rw [hs, ht]
  norm_num

end Solve

end IntervalProgramming
