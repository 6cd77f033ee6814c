import IntervalProgramming.Proofs.Layout.Volume
import IntervalProgramming.Proofs.Tuple.Counter

/-!
# The check for a partition

Whether the boxes of a map partition its domain is found out by trying all
index tuples of the domain.  A counter in index words goes through them in
place: it tries each tuple once, turns no index out of its word and ends after
the last one or at the first that is not in exactly one box.
-/

namespace IntervalProgramming

variable {α : Type} [Scalar α]

namespace Tuple

theorem all_eq_range_all (n : ℕ) (p : ℕ → Bool) :
    (Nat.all n fun j _ => p j) = (List.range n).all p := by
  induction n with
  | zero => rfl
  | succ n ih =>
      rw [Nat.all_succ, ih, List.range_succ, List.all_append, List.all_cons, List.all_nil,
        Bool.and_true]

/-- A predicate is checked on the whole product of the indices below the
limits. -/
theorem allBelow_eq (limits : List ℕ) (p : List ℕ → Bool) :
    allBelow limits p = (firstFastest (limits.map List.range)).all p := by
  induction limits generalizing p with
  | nil => simp [allBelow, firstFastest]
  | cons n limits ih =>
      rw [allBelow, ih, List.map_cons, firstFastest, List.all_flatMap]
      congr 1
      funext tuple
      rw [all_eq_range_all, List.all_map]
      rfl

end Tuple

namespace Domain

/-- The counter of the index tuples of a domain, in index words. -/
def counter (d : Domain α) : Counter (List ℕ) :=
  Counter.ofPlaces (d.counts.map Place.below)

/-- The tuple of first indices. -/
def origin (d : Domain α) : List ℕ :=
  d.counts.map fun _ => 0

/-- The counter of a domain goes through its tuples and stops after the last. -/
theorem listFrom?_counter (d : Domain α) :
    d.counter.listFrom? d.origin = some d.tuples := by
  have hlists : List.Forall₂ Place.Lists (d.counts.map Place.below)
      (d.counts.map List.range) := by
    rw [List.forall₂_map_left_iff, List.forall₂_map_right_iff, List.forall₂_same]
    intro n hn
    obtain ⟨v, -, rfl⟩ := List.mem_map.mp hn
    exact Place.lists_below v.count_pos v.count_le_maxIndex
  have hlist := Counter.listFrom?_ofPlaces hlists
  rwa [List.map_map] at hlist

end Domain

/-- A test passes at one place of a list if and only if that place is unique. -/
theorem countP_eq_one_iff {β : Type} {p : β → Bool} {xs : List β} :
    xs.countP p = 1 ↔ ∃! ix : ℕ, ∃ x, xs[ix]? = some x ∧ p x = true := by
  induction xs with
  | nil => simp
  | cons x xs ih =>
      by_cases hx : p x = true
      · rw [List.countP_cons_of_pos hx, Nat.succ_inj, List.countP_eq_zero]
        constructor
        · intro hnone
          refine ⟨0, ⟨x, rfl, hx⟩, ?_⟩
          rintro (_ | ix) ⟨y, hy, hpy⟩
          · rfl
          · exact absurd hpy (hnone y (List.mem_of_getElem? hy))
        · rintro ⟨ix, -, hunique⟩ y hy hpy
          obtain ⟨k, hk⟩ := List.mem_iff_getElem?.mp hy
          have hzero := hunique 0 ⟨x, rfl, hx⟩
          have hsucc := hunique (k + 1) ⟨y, hk, hpy⟩
          omega
      · rw [List.countP_cons_of_neg hx, ih]
        constructor
        · rintro ⟨ix, hix, hunique⟩
          refine ⟨ix + 1, hix, ?_⟩
          rintro (_ | k) ⟨y, hy, hpy⟩
          · exact absurd (Option.some.inj hy ▸ hpy) hx
          · rw [hunique k ⟨y, hy, hpy⟩]
        · rintro ⟨_ | ix, ⟨y, hy, hpy⟩, hunique⟩
          · exact absurd (Option.some.inj hy ▸ hpy) hx
          · exact ⟨ix, ⟨y, hy, hpy⟩, fun k hk => Nat.succ.inj (hunique (k + 1) hk)⟩

namespace PiecewiseMap

/-- Whether an index tuple lies in exactly one box. -/
def holdsOnce (m : PiecewiseMap α) (tuple : List ℕ) : Bool :=
  m.boxes.toList.countP (·.contains tuple) == 1

theorem holdsOnce_iff {m : PiecewiseMap α} {tuple : List ℕ} :
    m.holdsOnce tuple = true ↔
      ∃! ix : ℕ, ∃ b, m.boxes[ix]? = some b ∧ b.contains tuple = true := by
  rw [holdsOnce, beq_iff_eq, countP_eq_one_iff]
  simp only [Array.getElem?_toList]

/-- The check for a partition with the tuples counted in index words; `none` if
an index leaves its word. -/
def isPartitionInWords? (m : PiecewiseMap α) : Option Bool :=
  if m.domain.isEmpty then some false
  else m.domain.counter.allFrom? m.holdsOnce m.domain.origin

theorem isPartition_eq (m : PiecewiseMap α) :
    m.isPartition = (!m.domain.isEmpty && m.domain.tuples.all m.holdsOnce) := by
  rw [isPartition, Tuple.allBelow_eq]
  rfl

theorem isPartitionInWords?_eq (m : PiecewiseMap α) :
    m.isPartitionInWords? = some m.isPartition := by
  rw [isPartitionInWords?, isPartition_eq,
    Counter.allFrom?_eq m.domain.listFrom?_counter]
  cases m.domain.isEmpty with
  | true => rfl
  | false => rfl

/-- The check decides whether the boxes partition the domain.  The counter goes
through the tuples of the domain, each once, and the check with this counter has
a result, no index leaving its word.  It holds if and only if there is a variable
and every tuple of the domain lies in exactly one box. -/
theorem isPartition_decides (m : PiecewiseMap α) :
    m.domain.counter.listFrom? m.domain.origin = some m.domain.tuples ∧
      m.domain.tuples.Nodup ∧
      (∀ tuple, tuple ∈ m.domain.tuples ↔ m.domain.HasTuple tuple) ∧
      m.isPartitionInWords? = some m.isPartition ∧
      (m.isPartition = true ↔ 0 < m.domain.size ∧
        ∀ tuple, m.domain.HasTuple tuple →
          ∃! ix : ℕ, ∃ b, m.boxes[ix]? = some b ∧ b.contains tuple = true) := by
  refine ⟨m.domain.listFrom?_counter, m.domain.nodup_tuples, fun _ => Domain.mem_tuples,
    m.isPartitionInWords?_eq, ?_⟩
  rw [isPartition_eq, Bool.and_eq_true, List.all_eq_true]
  simp only [Domain.mem_tuples, holdsOnce_iff]
  simp [Domain.isEmpty, Domain.size, List.length_pos_iff]

end PiecewiseMap

end IntervalProgramming
