import IntervalProgramming.Proofs.Solve.Combinations

/-!
# The search as a scan

The depth-first search goes through the combinations of its levels in
lexicographic order.  A branch is skipped only if the search rule lets every
combination below it be passed over.  So a search amounts to a scan of the list
of combinations, in which each one is either taken into account or passed over
under the best find at that moment.
-/

namespace IntervalProgramming

/-- Passing over a combination with this region under a best find: pruning is
on, and the greatest value does not beat the find by the slack. -/
def SearchRule.Passes (rule : SearchRule ℚ) (find : Find ℚ) (region : Box ℚ) : Prop :=
  rule.prune = true ∧
    region.maxVal ≤ find.value + rule.slack * Scalar.abs find.value

namespace Search

/-- The best find after a combination was taken into account. -/
def improve (best : Option (Find ℚ)) (region : Box ℚ) : Option (Find ℚ) :=
  ({ best := best : Search ℚ }.visitLeaf region).best

theorem improve_none (region : Box ℚ) :
    improve none region = some ⟨region.maxVal, region⟩ :=
  rfl

theorem improve_some (find : Find ℚ) (region : Box ℚ) :
    improve (some find) region =
      if find.value < region.maxVal then some ⟨region.maxVal, region⟩
      else some find :=
  rfl

/-- A scan of regions that starts from one best find and ends with another. -/
inductive Scan (passes : Find ℚ → Box ℚ → Prop) :
    Option (Find ℚ) → List (Box ℚ) → Option (Find ℚ) → Prop
  | nil (best : Option (Find ℚ)) : Scan passes best [] best
  | visit {best last : Option (Find ℚ)} {region : Box ℚ} {regions : List (Box ℚ)}
      (h : Scan passes (improve best region) regions last) :
      Scan passes best (region :: regions) last
  | pass {find : Find ℚ} {last : Option (Find ℚ)} {region : Box ℚ}
      {regions : List (Box ℚ)} (hpass : passes find region)
      (h : Scan passes (some find) regions last) :
      Scan passes (some find) (region :: regions) last

namespace Scan

variable {passes : Find ℚ → Box ℚ → Prop} {best middle last : Option (Find ℚ)}
  {regions regions' : List (Box ℚ)}

theorem append (h : Scan passes best regions middle)
    (h' : Scan passes middle regions' last) :
    Scan passes best (regions ++ regions') last := by
  induction h with
  | nil best => exact h'
  | visit _ ih => exact visit (ih h')
  | pass hpass _ ih => exact pass hpass (ih h')

theorem pass_all {find : Find ℚ} (h : ∀ region ∈ regions, passes find region) :
    Scan passes (some find) regions (some find) := by
  induction regions with
  | nil => exact nil _
  | cons region regions ih =>
      obtain ⟨hregion, hrest⟩ := List.forall_mem_cons.mp h
      exact pass hregion (ih hrest)

end Scan

/-! ## The combinations of some levels -/

/-- The combinations that start with the box at one position and continue as
`below` says for the region that the box leaves. -/
def branch (m : PiecewiseMap ℚ) (enter : Box ℚ → Option (Box ℚ))
    (below : Box ℚ → List (List ℕ × Box ℚ)) (ix : ℕ) : List (List ℕ × Box ℚ) :=
  match m.boxes[ix]?.bind enter with
  | none => []
  | some region => (below region).map fun c => (ix :: c.1, c.2)

/-- The ways to complete a region by the given levels: positions and region. -/
def completions : List (PiecewiseMap ℚ) → Box ℚ → List (List ℕ × Box ℚ)
  | [], region => [([], region)]
  | m :: levels, region =>
    (m.overlapping region).flatMap
      (branch m (region.meetAs? · m.degree) fun r => completions levels r)

/-- The combinations of the given levels: positions and region. -/
def combinations : List (PiecewiseMap ℚ) → List (List ℕ × Box ℚ)
  | [] => []
  | top :: rest =>
    (List.range top.size).flatMap
      (branch top (fun b => some (b.asLinear top.degree)) (completions rest))

variable {d : Domain ℚ} {m : PiecewiseMap ℚ} {levels : List (PiecewiseMap ℚ)}
  {enter : Box ℚ → Option (Box ℚ)} {below : Box ℚ → List (List ℕ × Box ℚ)}
  {region r : Box ℚ} {positions : List ℕ}

theorem mem_branch {ix : ℕ} :
    (positions, r) ∈ branch m enter below ix ↔
      ∃ rest, positions = ix :: rest ∧
        ∃ region, m.boxes[ix]?.bind enter = some region ∧
          (rest, r) ∈ below region := by
  unfold branch
  cases m.boxes[ix]?.bind enter with
  | none => simp
  | some region =>
      rw [List.mem_map]
      constructor
      · rintro ⟨⟨rest, r'⟩, hrest, heq⟩
        obtain ⟨rfl, rfl⟩ := Prod.mk.inj heq
        exact ⟨rest, rfl, region, rfl, hrest⟩
      · rintro ⟨rest, rfl, _, hregion, hrest⟩
        obtain rfl := Option.some.inj hregion
        exact ⟨(rest, r), hrest, rfl⟩

/-- Branches at ascending positions list combinations in lexicographic
order. -/
theorem pairwise_flatMap_branch {starts : List ℕ}
    (hstarts : starts.Pairwise (· < ·))
    (hbelow : ∀ region, (below region).Pairwise fun c c' => c.1 < c'.1) :
    (starts.flatMap (branch m enter below)).Pairwise fun c c' => c.1 < c'.1 := by
  rw [List.pairwise_flatMap]
  constructor
  · intro ix _
    unfold branch
    cases m.boxes[ix]?.bind enter with
    | none => exact List.Pairwise.nil
    | some region =>
        rw [List.pairwise_map]
        exact (hbelow region).imp fun h =>
          List.cons_lt_cons_iff.mpr (Or.inr ⟨rfl, h⟩)
  · refine hstarts.imp ?_
    rintro ix jx hlt ⟨c, r⟩ hc ⟨c', r'⟩ hc'
    obtain ⟨rest, rfl, -⟩ := mem_branch.mp hc
    obtain ⟨rest', rfl, -⟩ := mem_branch.mp hc'
    exact List.cons_lt_cons_iff.mpr (Or.inl hlt)

theorem pairwise_completions (hlevels : ∀ m ∈ levels, m.IsOver d)
    (region : Box ℚ) :
    (completions levels region).Pairwise fun c c' => c.1 < c'.1 := by
  induction levels generalizing region with
  | nil => exact List.pairwise_singleton _ _
  | cons m levels ih =>
      obtain ⟨hm, hrest⟩ := List.forall_mem_cons.mp hlevels
      exact pairwise_flatMap_branch
        (PiecewiseMap.pairwise_overlapping hm.full region) (ih hrest)

theorem mem_completions (hlevels : ∀ m ∈ levels, m.IsOver d) :
    (positions, r) ∈ completions levels region ↔
      narrow? levels region positions = some r := by
  induction levels generalizing region positions with
  | nil =>
      cases positions with
      | nil => simp [completions, narrow?, eq_comm]
      | cons ix positions => simp [completions, narrow?]
  | cons m levels ih =>
      obtain ⟨hm, hrest⟩ := List.forall_mem_cons.mp hlevels
      simp only [completions, List.mem_flatMap, mem_branch]
      cases positions with
      | nil => simp [narrow?]
      | cons ix positions =>
          simp only [narrow?, Option.bind_eq_some_iff, List.cons.injEq]
          constructor
          · rintro ⟨_, -, _, ⟨rfl, rfl⟩, narrowed, hnarrowed, hmem⟩
            exact ⟨narrowed, hnarrowed, (ih hrest).mp hmem⟩
          · rintro ⟨narrowed, ⟨b, hb, hmeet⟩, hmem⟩
            refine ⟨ix, ?_, positions, ⟨rfl, rfl⟩, narrowed, ⟨b, hb, hmeet⟩,
              (ih hrest).mpr hmem⟩
            rw [PiecewiseMap.mem_overlapping hm.full]
            refine ⟨b, hb, ?_⟩
            rw [Box.intersects_comm, ← Box.meetAs?_isSome, hmeet]
            rfl

theorem pairwise_combinations (hlevels : ∀ m ∈ levels, m.IsOver d) :
    (combinations levels).Pairwise fun c c' => c.1 < c'.1 := by
  cases levels with
  | nil => exact List.Pairwise.nil
  | cons top rest =>
      obtain ⟨-, hrest⟩ := List.forall_mem_cons.mp hlevels
      exact pairwise_flatMap_branch List.pairwise_lt_range
        (pairwise_completions hrest)

theorem mem_combinations (hlevels : ∀ m ∈ levels, m.IsOver d) :
    (positions, r) ∈ combinations levels ↔ region? levels positions = some r := by
  cases levels with
  | nil => simp [combinations, region?]
  | cons top rest =>
      obtain ⟨-, hrest⟩ := List.forall_mem_cons.mp hlevels
      simp only [combinations, List.mem_flatMap, mem_branch]
      cases positions with
      | nil => simp [region?]
      | cons ix positions =>
          simp only [region?, List.cons.injEq, Option.bind_eq_some_iff,
            Option.map_eq_some_iff, Option.some.injEq, mem_completions hrest]
          constructor
          · rintro ⟨_, -, _, ⟨rfl, rfl⟩, h⟩
            exact h
          · rintro ⟨region, ⟨b, hb, hregion⟩, h⟩
            refine ⟨ix, ?_, positions, ⟨rfl, rfl⟩, region, ⟨b, hb, hregion⟩, h⟩
            exact List.mem_range.mpr (Array.getElem?_eq_some_iff.mp hb).1

/-! ## Skipped branches -/

/-- Where a branch is skipped, all completions may be passed over. -/
theorem passes_of_skips {rule : SearchRule ℚ} {best : Option (Find ℚ)}
    (hlevels : ∀ m ∈ levels, m.IsOver d) (hregion : IsRegion d region)
    (h : rule.skips best levels region = true) :
    ∃ find, best = some find ∧
      ∀ c ∈ completions levels region, rule.Passes find c.2 := by
  cases best with
  | none => cases h
  | some find =>
      simp only [SearchRule.skips, Bool.and_eq_true, Bool.not_eq_true'] at h
      refine ⟨find, rfl, ?_⟩
      rintro ⟨positions, r⟩ hc
      refine ⟨h.1, ?_⟩
      have hr := (mem_completions hlevels).mp hc
      have hmem := Box.contains_maxPoint (isRegion_narrow? hlevels hregion hr).modelled
      obtain ⟨hin, x, hpicks, hvalue⟩ := picks_of_narrow? hlevels hregion hr hmem
      obtain ⟨y, hy, hle⟩ := covers_completionBound hlevels hregion hin hpicks
      rw [← hvalue, Box.eval_maxPoint] at hle
      have hbeats := h.2
      simp only [SearchRule.beats, hy, decide_eq_false_iff_not, not_lt] at hbeats
      exact hle.trans hbeats

theorem map_snd_branch {ix : ℕ} {region : Box ℚ}
    (h : m.boxes[ix]?.bind enter = some region) :
    (branch m enter below ix).map Prod.snd = (below region).map Prod.snd := by
  simp only [branch, h, List.map_map]
  rfl

/-! ## Accounts of a search -/

/-- An account of a search by a rule relates the regions that a stretch of it
brings to the last level or skips to the states before and after.  It can be
put together, and it knows single leaves and skipped branches. -/
structure Account (d : Domain ℚ) (rule : SearchRule ℚ)
    (R : List (Box ℚ) → Search ℚ → Search ℚ → Prop) : Prop where
  nil : ∀ s, R [] s s
  append : ∀ {regions regions' s t u}, R regions s t → R regions' t u →
    R (regions ++ regions') s u
  meet : ∀ s, R [] s s.noteMeet
  leaf : ∀ region s, R [region] s (s.visitLeaf region)
  skip : ∀ {levels region s}, (∀ m ∈ levels, m.IsOver d) → IsRegion d region →
    rule.skips s.best levels region = true →
    R ((completions levels region).map Prod.snd) s s.notePruned

namespace Account

variable {rule : SearchRule ℚ} {R : List (Box ℚ) → Search ℚ → Search ℚ → Prop}

/-- Accounts of the steps of a loop make an account of the loop. -/
theorem foldl (hR : Account d rule R) {step : Search ℚ → ℕ → Search ℚ}
    {below : ℕ → List (Box ℚ)} {positions : List ℕ}
    (h : ∀ ix ∈ positions, ∀ s, R (below ix) s (step s ix)) (s : Search ℚ) :
    R (positions.flatMap below) s (positions.foldl step s) := by
  induction positions generalizing s with
  | nil => exact hR.nil s
  | cons ix positions ih =>
      obtain ⟨hix, hrest⟩ := List.forall_mem_cons.mp h
      rw [List.flatMap_cons, List.foldl_cons]
      exact hR.append (hix s) (ih hrest _)

/-- Searching below a region accounts for its completions: induction on the
levels, with the skipped branches as a whole. -/
theorem descend (hR : Account d rule R) (hlevels : ∀ m ∈ levels, m.IsOver d)
    (hregion : IsRegion d region) (s : Search ℚ) :
    R ((completions levels region).map Prod.snd) s
      (descend rule levels region s) := by
  induction levels generalizing region s with
  | nil => exact hR.leaf region s
  | cons m levels ih =>
      obtain ⟨hm, hrest⟩ := List.forall_mem_cons.mp hlevels
      unfold Search.descend
      split
      · rename_i hskips
        exact hR.skip hlevels hregion hskips
      · rw [completions, List.map_flatMap]
        refine hR.foldl (fun ix _ s => ?_) s
        cases hb : m.boxes[ix]? with
        | none =>
            simp only [branch, hb, Option.bind_none, List.map_nil]
            exact hR.nil s
        | some b =>
            cases hmeet : region.meetAs? b m.degree with
            | none =>
                simp only [branch, hb, Option.bind_some, hmeet, List.map_nil]
                exact hR.meet s
            | some narrowed =>
                have henter : m.boxes[ix]?.bind (region.meetAs? · m.degree) =
                    some narrowed := by
                  rw [hb, Option.bind_some, hmeet]
                rw [map_snd_branch henter]
                simp only [hmeet]
                exact hR.append (hR.meet s) (ih hrest
                  (hregion.meetAs? hm (Array.mem_of_getElem? hb) hmeet) s.noteMeet)

end Account

/-- A loop over the entries of a list is a loop over their positions. -/
theorem foldl_range {β : Type} (f : Search ℚ → β → Search ℚ) (xs : List β)
    (s : Search ℚ) :
    (List.range xs.length).foldl
      (fun s ix => (xs[ix]?.map (f s)).getD s) s = xs.foldl f s := by
  induction xs generalizing s with
  | nil => rfl
  | cons x xs ih =>
      rw [List.length_cons, List.range_succ_eq_map, List.foldl_cons,
        List.foldl_map, List.foldl_cons]
      simp only [List.getElem?_cons_zero, List.getElem?_cons_succ,
        Option.map_some, Option.getD_some]
      exact ih (f s x)

/-- A search accounts for the combinations of its levels in lexicographic
order. -/
theorem Account.run {rule : SearchRule ℚ}
    {R : List (Box ℚ) → Search ℚ → Search ℚ → Prop} (hR : Account d rule R)
    (hlevels : ∀ m ∈ levels, m.IsOver d) (s : Search ℚ) :
    R ((combinations levels).map Prod.snd) s (run rule levels s) := by
  cases levels with
  | nil => exact hR.nil s
  | cons top rest =>
      obtain ⟨htop, hrest⟩ := List.forall_mem_cons.mp hlevels
      have hrun : Search.run rule (top :: rest) s = top.boxes.toList.foldl
          (fun s b => Search.descend rule rest (b.asLinear top.degree) s) s :=
        (Array.foldl_toList _).symm
      rw [hrun, ← foldl_range, combinations, List.map_flatMap,
        Array.length_toList]
      refine hR.foldl (fun ix _ s => ?_) s
      rw [Array.getElem?_toList]
      cases hb : top.boxes[ix]? with
      | none =>
          simp only [branch, hb, Option.bind_none, List.map_nil]
          exact hR.nil s
      | some b =>
          have henter : top.boxes[ix]?.bind (fun b => some (b.asLinear top.degree)) =
              some (b.asLinear top.degree) := by
            rw [hb, Option.bind_some]
          rw [map_snd_branch henter]
          exact hR.descend hrest
            (isRegion_asLinear htop (Array.mem_of_getElem? hb)) s

/-! ## The search scans the combinations -/

/-- The best finds along a search make a scan, in which the completions of a
skipped branch are passed over. -/
theorem account_scan (d : Domain ℚ) (rule : SearchRule ℚ) :
    Account d rule fun regions s t => Scan rule.Passes s.best regions t.best where
  nil s := Scan.nil s.best
  append h h' := h.append h'
  meet s := Scan.nil s.best
  leaf region s := Scan.visit (Scan.nil _)
  skip := by
    intro levels region s hlevels hregion hskips
    obtain ⟨find, hbest, hpass⟩ := passes_of_skips hlevels hregion hskips
    rw [notePruned, hbest]
    refine Scan.pass_all fun r hr => ?_
    obtain ⟨c, hc, rfl⟩ := List.mem_map.mp hr
    exact hpass c hc

/-- A search scans the combinations of its levels in lexicographic order. -/
theorem scan_run (rule : SearchRule ℚ) (hlevels : ∀ m ∈ levels, m.IsOver d)
    (s : Search ℚ) :
    Scan rule.Passes s.best ((combinations levels).map Prod.snd)
      (run rule levels s).best :=
  (account_scan d rule).run hlevels s

end Search

end IntervalProgramming
