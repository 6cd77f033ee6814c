import IntervalProgramming.Proofs.Scalar.TotalOrder
import IntervalProgramming.Proofs.Solve.Order

/-!
# Ranking maps by weight

An explicit order is taken as it is, and it is accepted exactly if it lists each
map once.  The order by weight ranks the bit patterns of the weights in their total
order and keeps maps of the same pattern as given.  So weights never increase along
it, but the two zeros are equal numbers with different patterns: maps of equal
weight keep the given order if and only if no map whose weight is the negative zero
is given before one whose weight is the positive zero.
-/

namespace IntervalProgramming

/-! ## Stable sorting -/

section Sorting

variable {β : Type} {le : β → β → Bool}

/-- Sorting leaves entries that are all as good as each other in their order. -/
theorem filter_mergeSort (htrans : ∀ x y z, le x y = true → le y z = true → le x z = true)
    (htotal : ∀ x y, (le x y || le y x) = true) {p : β → Bool}
    (hp : ∀ x y, p x = true → p y = true → le x y = true) (xs : List β) :
    (xs.mergeSort le).filter p = xs.filter p := by
  have hsorted : (xs.filter p).Pairwise (le · ·) :=
    List.pairwise_of_forall_mem_list fun x hx y hy =>
      hp x y (List.mem_filter.mp hx).2 (List.mem_filter.mp hy).2
  have hsub : (xs.filter p).Sublist ((xs.mergeSort le).filter p) := by
    have hstable := List.sublist_mergeSort htrans htotal hsorted List.filter_sublist
    simpa only [List.filter_filter, Bool.and_self] using hstable.filter p
  refine (hsub.eq_of_length ?_).symm
  exact (((List.mergeSort_perm xs le).filter p).length_eq).symm

theorem mergeSort_pair (x y : β) :
    [x, y].mergeSort le = if le x y = true then [x, y] else [y, x] := by
  simp [List.mergeSort, List.merge]

end Sorting

variable {α : Type} [Scalar α]

theorem heavier_total (x y : Option α) : (heavier x y || heavier y x) = true := by
  cases x with
  | none => cases y <;> rfl
  | some x =>
      cases y with
      | none => rfl
      | some y =>
          rw [Bool.or_eq_true]
          exact Scalar.rankLE_total y x

theorem heavier_trans (x y z : Option α) (hxy : heavier x y = true)
    (hyz : heavier y z = true) : heavier x z = true := by
  cases z with
  | none => cases x <;> rfl
  | some z =>
      cases y with
      | none => cases hyz
      | some y =>
          cases x with
          | none => cases hxy
          | some x => exact Scalar.rankLE_trans z y x hyz hxy

namespace PriorityOrder

/-- The weights of maps with their positions, the heaviest first. -/
def ranked (maps : List (PiecewiseMap α)) : List (Option α × ℕ) :=
  (maps.map (·.weight?)).zipIdx.mergeSort fun v w => heavier v.1 w.1

theorem resolve?_byMaxWeight (maps : List (PiecewiseMap α)) :
    byMaxWeight.resolve? maps = .ok ((ranked maps).map (·.2)) :=
  rfl

theorem resolve?_explicit_eq_ok_iff {maps : List (PiecewiseMap α)}
    {positions order : List ℕ} :
    (explicit positions).resolve? maps = .ok order ↔
      order = positions ∧ positions.Perm (List.range maps.length) := by
  rw [← OrderFault.find?_eq_none_iff, resolve?]
  cases OrderFault.find? maps.length positions with
  | none => simp [eq_comm]
  | some fault => simp

theorem perm_of_resolve?_eq_ok {maps : List (PiecewiseMap α)} {priority : PriorityOrder}
    {order : List ℕ} (h : priority.resolve? maps = .ok order) :
    order.Perm (List.range maps.length) := by
  have hvalid : priority.ValidFor maps.length := by
    cases priority with
    | asGiven => trivial
    | byMaxWeight => trivial
    | explicit positions => exact (resolve?_explicit_eq_ok_iff.mp h).2
  obtain ⟨positions, hpositions, hperm⟩ := exists_resolve? hvalid
  obtain rfl := Except.ok.inj (hpositions.symm.trans h)
  exact hperm

theorem pairwise_ranked (maps : List (PiecewiseMap α)) :
    (ranked maps).Pairwise fun v w => heavier v.1 w.1 = true :=
  List.pairwise_mergeSort (fun v w u => heavier_trans v.1 w.1 u.1)
    (fun v w => heavier_total v.1 w.1) _

theorem getElem?_of_mem_ranked {maps : List (PiecewiseMap α)} {v : Option α × ℕ}
    (hv : v ∈ ranked maps) : maps[v.2]?.map (·.weight?) = some v.1 := by
  rw [ranked, List.mem_mergeSort, List.mem_zipIdx_iff_getElem?, List.getElem?_map] at hv
  exact hv

end PriorityOrder

/-! ## Weights as bit patterns -/

/-- The weight that ranks a map; a map without boxes weighs negative infinity. -/
def PiecewiseMap.weight (m : PiecewiseMap BitPattern) : BitPattern :=
  m.maxWeight?.getD ⟨0xFFF0000000000000⟩

theorem PiecewiseMap.weight?_eq (m : PiecewiseMap BitPattern) :
    m.weight? = some m.weight := by
  rw [weight?, weight]
  cases m.maxWeight? <;> rfl

namespace PriorityOrder

variable {maps : List (PiecewiseMap BitPattern)} {order : List ℕ}

/-- Whether a relation holds of any two maps at positions of an order, each with its
position, the earlier one first. -/
def Along (maps : List (PiecewiseMap BitPattern)) (order : List ℕ)
    (R : PiecewiseMap BitPattern × ℕ → PiecewiseMap BitPattern × ℕ → Prop) : Prop :=
  order.Pairwise fun i k =>
    ∀ v w, maps[i]? = some v → maps[k]? = some w → R (v, i) (w, k)

/-- Of two maps one comes first. -/
theorem Along.either {R : PiecewiseMap BitPattern × ℕ → PiecewiseMap BitPattern × ℕ → Prop}
    (h : Along maps order R) (hperm : order.Perm (List.range maps.length)) {i k : ℕ}
    (hi : i < maps.length) (hk : k < maps.length) (hne : i ≠ k) :
    R (maps[i], i) (maps[k], k) ∨ R (maps[k], k) (maps[i], i) := by
  let S : ℕ → ℕ → Prop := fun i k =>
    ∀ v w, maps[i]? = some v → maps[k]? = some w → R (v, i) (w, k)
  have hmem : ∀ ix < maps.length, ix ∈ order := fun ix hix =>
    hperm.mem_iff.mpr (List.mem_range.mpr hix)
  have hpairs : order.Pairwise fun i k => S i k ∨ S k i := List.Pairwise.imp Or.inl h
  have hsymm : Std.Symm fun i k => S i k ∨ S k i := ⟨fun _ _ => Or.symm⟩
  have hboth := hpairs.forall (hmem i hi) (hmem k hk) hne
  have hgeti := List.getElem?_eq_getElem hi
  have hgetk := List.getElem?_eq_getElem hk
  exact hboth.imp (fun hS => hS _ _ hgeti hgetk) fun hS => hS _ _ hgetk hgeti

theorem along_ranked {R : Option BitPattern × ℕ → Option BitPattern × ℕ → Prop}
    (h : (ranked maps).Pairwise R) :
    Along maps ((ranked maps).map (·.2)) fun v w =>
      R (some v.1.weight, v.2) (some w.1.weight, w.2) := by
  have hentry : ∀ a ∈ ranked maps, ∀ v, maps[a.2]? = some v →
      a = (some v.weight, a.2) := by
    intro a ha v hv
    have hweight := getElem?_of_mem_ranked ha
    rw [hv, Option.map_some, v.weight?_eq] at hweight
    exact Prod.ext (Option.some.inj hweight).symm rfl
  rw [Along, List.pairwise_map]
  refine h.imp_of_mem ?_
  intro a b ha hb hR v w hv hw
  rwa [hentry a ha v hv, hentry b hb w hw] at hR

theorem heavier_of_eq {x y : Option BitPattern} (h : x = y) : heavier x y = true := by
  subst h
  simpa only [Bool.or_self] using heavier_total x x

/-- The maps of one weight are ranked as given. -/
theorem filter_ranked (maps : List (PiecewiseMap BitPattern)) (x : Option BitPattern) :
    (ranked maps).filter (fun v => decide (v.1 = x)) =
      (maps.map (·.weight?)).zipIdx.filter fun v => decide (v.1 = x) := by
  apply filter_mergeSort (fun v w u => heavier_trans v.1 w.1 u.1)
    (fun v w => heavier_total v.1 w.1)
  intro v w hv hw
  exact heavier_of_eq ((of_decide_eq_true hv).trans (of_decide_eq_true hw).symm)

/-- Maps whose weights have the same bits keep the given order. -/
theorem pairwise_ranked_of_eq (maps : List (PiecewiseMap BitPattern)) :
    (ranked maps).Pairwise fun v w => v.1 = w.1 → v.2 < w.2 := by
  rw [List.pairwise_iff_forall_sublist]
  intro v w hsub heq
  have hpair : [v, w].filter (fun u => decide (u.1 = v.1)) = [v, w] := by
    simp [heq]
  have hsame := hsub.filter fun u => decide (u.1 = v.1)
  rw [hpair, filter_ranked] at hsame
  have hpositions := (hsame.trans List.filter_sublist).map Prod.snd
  rw [List.zipIdx_map_snd] at hpositions
  exact List.pairwise_iff_forall_sublist.mp List.pairwise_lt_range' hpositions

theorem along_not_lt {order : List ℕ}
    (h : Along maps order fun v w => w.1.weight.TotalLE v.1.weight) :
    Along maps order fun v w => ¬ v.1.weight < w.1.weight :=
  h.imp fun htotal v w hv hw => BitPattern.not_lt_of_totalLE (htotal v w hv hw)

/-- An order by the total order of weights that keeps maps of the same pattern as
given keeps maps of equal weight as given, unless a map whose weight is the negative
zero is given before one whose weight is the positive zero. -/
theorem along_of_beq_iff (hperm : order.Perm (List.range maps.length))
    (htotal : Along maps order fun v w => w.1.weight.TotalLE v.1.weight)
    (hsame : Along maps order fun v w => v.1.weight = w.1.weight → v.2 < w.2) :
    (Along maps order fun v w => (v.1.weight == w.1.weight) = true → v.2 < w.2) ↔
      maps.Pairwise fun m m' =>
        ¬ (m.weight = BitPattern.negativeZero ∧ m'.weight = BitPattern.positiveZero) := by
  have hnodup : order.Nodup := hperm.nodup_iff.mpr List.nodup_range
  rw [List.pairwise_iff_getElem]
  constructor
  · rintro hequal i k hi hk hik ⟨hnegative, hpositive⟩
    have hboth : Along maps order fun v w => w.1.weight.TotalLE v.1.weight ∧
        ((v.1.weight == w.1.weight) = true → v.2 < w.2) :=
      (htotal.and hequal).imp fun h v w hv hw => ⟨h.1 v w hv hw, h.2 v w hv hw⟩
    rcases hboth.either hperm hi hk hik.ne with ⟨hle, -⟩ | ⟨-, hlt⟩
    · rw [hnegative, hpositive] at hle
      exact BitPattern.not_totalLE_zeros hle
    · rw [hnegative, hpositive] at hlt
      exact hik.not_gt (hlt BitPattern.positiveZero_beq_negativeZero)
  · intro hzeros
    refine ((htotal.and hsame).and hnodup).imp ?_
    rintro i k ⟨⟨htotal, hsame⟩, hne⟩ v w hv hw hequal
    by_contra hle
    have hki : k < i := by omega
    obtain ⟨hi, rfl⟩ := List.getElem?_eq_some_iff.mp hv
    obtain ⟨hk, rfl⟩ := List.getElem?_eq_some_iff.mp hw
    rcases BitPattern.eq_or_zeros_of_beq hequal (htotal _ _ hv hw) with heq | hzero
    · exact hle (hsame _ _ hv hw heq.symm)
    · exact hzeros k i hk hi hki hzero

theorem perm_range_iff_count {n : ℕ} :
    order.Perm (List.range n) ↔ ∀ ix, order.count ix = if ix < n then 1 else 0 := by
  simp only [List.perm_iff_count, List.count_range]

/-- Search levels are the maps, rearranged.  An explicit order is accepted if and
only if it lists each position once, and is then used as given; the given order is
that of the positions.  The order by weight rearranges the positions so that weights
never increase: it follows the total order of their bits, and maps whose weights have
the same bits keep the given order.  Maps of equal weight keep the given order if and
only if no map whose weight is the negative zero is given before one whose weight is
the positive zero. -/
theorem resolve?_rearranges (maps : List (PiecewiseMap BitPattern)) :
    (∀ positions order, (explicit positions).resolve? maps = .ok order ↔
      order = positions ∧
        ∀ ix, positions.count ix = if ix < maps.length then 1 else 0) ∧
    asGiven.resolve? maps = .ok (List.range maps.length) ∧
    (∃ order, byMaxWeight.resolve? maps = .ok order ∧
      order.Perm (List.range maps.length) ∧
      (Along maps order fun v w => ¬ v.1.weight < w.1.weight) ∧
      (Along maps order fun v w => w.1.weight.TotalLE v.1.weight) ∧
      (Along maps order fun v w => v.1.weight = w.1.weight → v.2 < w.2) ∧
      ((Along maps order fun v w => (v.1.weight == w.1.weight) = true → v.2 < w.2) ↔
        maps.Pairwise fun m m' => ¬ (m.weight = BitPattern.negativeZero ∧
          m'.weight = BitPattern.positiveZero))) ∧
    ∀ (priority : PriorityOrder) order, priority.resolve? maps = .ok order →
      order.Perm (List.range maps.length) := by
  have hok := resolve?_byMaxWeight maps
  have hperm := perm_of_resolve?_eq_ok hok
  have htotal : Along maps ((ranked maps).map (·.2)) fun v w =>
      w.1.weight.TotalLE v.1.weight :=
    (along_ranked (pairwise_ranked maps)).imp fun h v w hv hw =>
      BitPattern.rankLE_iff.mp (h v w hv hw)
  have hsame : Along maps ((ranked maps).map (·.2)) fun v w =>
      v.1.weight = w.1.weight → v.2 < w.2 :=
    (along_ranked (pairwise_ranked_of_eq maps)).imp fun h v w hv hw heq =>
      h v w hv hw (congrArg some heq)
  refine ⟨?_, rfl, ?_, fun _ _ => perm_of_resolve?_eq_ok⟩
  · intro positions order
    rw [resolve?_explicit_eq_ok_iff, perm_range_iff_count]
  · exact ⟨_, hok, hperm, along_not_lt htotal, htotal, hsame,
      along_of_beq_iff hperm htotal hsame⟩

/-- The domain of one variable with the values zero and one. -/
def bitSwitch : Domain BitPattern where
  vars := [{
    name := "x"
    low := ⟨0⟩
    high := ⟨0x3FF0000000000000⟩
    points := .ofNat 2
    low_finite := by decide
    high_finite := by decide
    ordered := by decide
    points_ne_zero := by decide
    single := by decide }]
  unique := by decide

/-- The map of one value everywhere, made of a box for each index. -/
def evenMap (value : BitPattern) (indices : List ℕ) : PiecewiseMap BitPattern :=
  .ofBoxes bitSwitch .constant
    (indices.map fun j => { Box.flat [Extent.point 0 j] with intercept := value })

/-- The map that is the negative zero, given before the one that is the positive. -/
def signedZeros : List (PiecewiseMap BitPattern) :=
  [evenMap BitPattern.negativeZero [1, 0], evenMap BitPattern.positiveZero [0, 1]]

/-- The order by weight turns two maps of equal weight around. -/
theorem byMaxWeight_signedZeros :
    byMaxWeight.resolve? signedZeros = .ok [1, 0] ∧
      ¬ Along signedZeros [1, 0] fun v w =>
        (v.1.weight == w.1.weight) = true → v.2 < w.2 := by
  constructor
  · have hweights : (signedZeros.map (·.weight?)).zipIdx =
        [(some BitPattern.negativeZero, 0), (some BitPattern.positiveZero, 1)] := by
      decide
    have hlighter : heavier (some BitPattern.negativeZero)
        (some BitPattern.positiveZero) = false := by
      decide
    rw [resolve?_byMaxWeight, ranked, hweights, mergeSort_pair,
      if_neg (ne_true_of_eq_false hlighter)]
    rfl
  · intro h
    have hlt := (List.pairwise_pair.mp h) _ _ rfl rfl (by decide)
    omega

end PriorityOrder

end IntervalProgramming
