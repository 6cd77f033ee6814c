import Mathlib.Data.List.Perm.Subperm
import Mathlib.Data.List.Range
import IntervalProgramming.Proofs.Map.Overlap
import IntervalProgramming.Solve.Search

/-!
# Search levels

An explicit order is accepted exactly if it is a rearrangement of the positions
of the maps, and the other orders always are one.  So the levels of an accepted
search are the maps, rearranged.
-/

namespace IntervalProgramming

variable {α : Type} [Scalar α]

/-- An order of `n` maps is valid if it names every map once. -/
def PriorityOrder.ValidFor (n : ℕ) : PriorityOrder → Prop
  | .asGiven => True
  | .byMaxWeight => True
  | .explicit positions => positions.Perm (List.range n)

namespace OrderFault

/-- A scan finds nothing wrong exactly if the entries are positions of maps,
all different and none seen before. -/
theorem scan?_eq_none_iff {n : ℕ} {seen order : List ℕ} :
    scan? n seen order = none ↔
      (∀ ix ∈ order, ix < n) ∧ order.Nodup ∧ ∀ ix ∈ order, ix ∉ seen := by
  induction order generalizing seen with
  | nil => simp [scan?]
  | cons ix rest ih =>
      simp only [scan?, List.contains_iff_mem]
      split
      · simp only [reduceCtorEq, List.mem_cons, forall_eq_or_imp, false_iff]
        omega
      · rename_i hlt
        split
        · rename_i hseen
          simp [hseen]
        · rename_i hnew
          rw [ih]
          simp only [List.mem_cons, not_or, forall_eq_or_imp, List.nodup_cons]
          constructor
          · rintro ⟨hall, hnodup, hseen⟩
            refine ⟨⟨by omega, hall⟩, ⟨fun hix => ?_, hnodup⟩, hnew, ?_⟩
            · exact (hseen ix hix).1 rfl
            · exact fun j hj => (hseen j hj).2
          · rintro ⟨⟨-, hall⟩, ⟨hix, hnodup⟩, -, hseen⟩
            refine ⟨hall, hnodup, fun j hj => ⟨?_, hseen j hj⟩⟩
            rintro rfl
            exact hix hj

theorem find?_eq_none_iff {n : ℕ} {order : List ℕ} :
    find? n order = none ↔ order.Perm (List.range n) := by
  unfold find?
  split
  · rename_i hlen
    simp only [reduceCtorEq, false_iff]
    intro hperm
    simp [hperm.length_eq] at hlen
  · rename_i hlen
    have hlen : order.length = n := by simpa using hlen
    rw [scan?_eq_none_iff]
    constructor
    · rintro ⟨hall, hnodup, -⟩
      have hsub : order ⊆ List.range n := fun ix hix =>
        List.mem_range.mpr (hall ix hix)
      refine (List.subperm_of_subset hnodup hsub).perm_of_length_le ?_
      rw [List.length_range, hlen]
    · intro hperm
      refine ⟨fun ix hix => ?_, hperm.nodup_iff.mpr List.nodup_range, ?_⟩
      · exact List.mem_range.mp (hperm.mem_iff.mp hix)
      · simp

end OrderFault

namespace PriorityOrder

/-- A valid order is accepted and becomes a rearrangement of the positions. -/
theorem exists_resolve? {order : PriorityOrder} {maps : List (PiecewiseMap α)}
    (h : order.ValidFor maps.length) :
    ∃ positions, order.resolve? maps = .ok positions ∧
      positions.Perm (List.range maps.length) := by
  cases order with
  | asGiven => exact ⟨_, rfl, List.Perm.refl _⟩
  | byMaxWeight =>
      refine ⟨_, rfl, ?_⟩
      refine ((List.mergeSort_perm _ _).map Prod.snd).trans ?_
      rw [List.zipIdx_map_snd, List.length_map, List.range_eq_range']
  | explicit positions =>
      refine ⟨positions, ?_, h⟩
      simp only [resolve?, OrderFault.find?_eq_none_iff.mpr h]

/-- The maps in search order. -/
def levels? (order : PriorityOrder) (maps : List (PiecewiseMap α)) :
    Option (List (PiecewiseMap α)) :=
  (order.resolve? maps).toOption.map (·.filterMap (maps[·]?))

theorem filterMap_range_getElem? {β : Type} (xs : List β) :
    (List.range xs.length).filterMap (xs[·]?) = xs := by
  induction xs with
  | nil => rfl
  | cons x xs ih =>
      rw [List.length_cons, List.range_succ_eq_map, List.filterMap_cons]
      simp only [List.getElem?_cons_zero, List.filterMap_map]
      exact congrArg (x :: ·) ih

/-- The levels of a valid order are the maps, rearranged. -/
theorem exists_levels? {order : PriorityOrder} {maps : List (PiecewiseMap α)}
    (h : order.ValidFor maps.length) :
    ∃ levels, order.levels? maps = some levels ∧ levels.Perm maps := by
  obtain ⟨positions, hpositions, hperm⟩ := exists_resolve? h
  refine ⟨positions.filterMap (maps[·]?), ?_, ?_⟩
  · simp only [levels?, hpositions, Except.toOption, Option.map_some]
  · have hmaps := hperm.filterMap (maps[·]?)
    rwa [filterMap_range_getElem?] at hmaps

end PriorityOrder

/-! ## Accepted requests -/

theorem Domain.beq_self (d : Domain ℚ) : (d == d) = true := by
  change d.same d = true
  simp only [Domain.same, beq_self_eq_true, Bool.true_and, List.all_eq_true,
    Prod.forall]
  intro v w hvw
  obtain rfl : v = w := by
    rw [List.zip_eq_zipWith, List.zipWith_self, List.mem_map] at hvw
    obtain ⟨u, -, hu⟩ := hvw
    exact (congrArg Prod.fst hu).symm.trans (congrArg Prod.snd hu)
  simp [ValueRange.same]

/-- An accepted request for maps with boxes is answered by a search through its
levels, starting from what the seed finds. -/
theorem solve_eq_run {d : Domain ℚ} {maps levels : List (PiecewiseMap ℚ)}
    {cfg : SolverConfig ℚ} (hmaps : maps ≠ [])
    (hnonempty : ∀ m ∈ maps, m.isEmpty = false)
    (hdomain : ∀ m ∈ maps, m.domain = d)
    (hpos : 0 < cfg.optimality) (hle : cfg.optimality ≤ 100)
    (hlevels : cfg.order.levels? maps = some levels) :
    solve maps cfg = .ok
      (Search.run (SearchRule.ofConfig cfg) levels
        { best := Search.seedFind? levels cfg.seed }).solution? := by
  cases maps with
  | nil => exact absurd rfl hmaps
  | cons first rest =>
      have hsame : ((first :: rest).findIdx? fun m =>
          !(m.domain == first.domain)) = none := by
        rw [List.findIdx?_eq_none_iff]
        intro m hm
        rw [hdomain m hm, hdomain first List.mem_cons_self, Domain.beq_self]
        rfl
      have hany : (first :: rest).any (·.isEmpty) = false := by
        rw [List.any_eq_false]
        intro m hm
        rw [hnonempty m hm]
        exact Bool.false_ne_true
      have hpct : (decide (((0 : ℕ) : ℚ) < cfg.optimality) &&
          decide (cfg.optimality ≤ ((100 : ℕ) : ℚ))) = true := by
        rw [Bool.and_eq_true, decide_eq_true_iff, decide_eq_true_iff]
        exact ⟨by exact_mod_cast hpos, by exact_mod_cast hle⟩
      unfold solve
      simp only [hpct, hsame, hany, Bool.not_true, Bool.false_eq_true, if_false]
      unfold PriorityOrder.levels? at hlevels
      cases hresolve : cfg.order.resolve? (first :: rest) with
      | error fault =>
          rw [hresolve] at hlevels
          cases hlevels
      | ok order =>
          rw [hresolve] at hlevels
          obtain rfl := Option.some.inj hlevels
          rfl

end IntervalProgramming
