import Mathlib.Algebra.BigOperators.Group.List.Lemmas
import Mathlib.Algebra.Order.BigOperators.Group.List
import Mathlib.Algebra.Group.Nat.Units
import Mathlib.Data.List.Nodup
import IntervalProgramming.Proofs.Layout.Tiling

/-!
# How many tuples a box holds

The volume of a box is the number of its tuples.  Counting the pairs of a box
and a tuple in it in both ways, the volumes of a list of boxes sum up to the
number of boxes that hold each tuple.  So the volumes of a partition sum up to
the number of tuples of the domain: a partition has no more boxes than that,
and if it has as many, each of its boxes is a single tuple.
-/

namespace IntervalProgramming

variable {α : Type} [Scalar α]

/-! ## Products of lists -/

namespace Tuple

variable {β : Type}

theorem length_firstFastest (axes : List (List β)) :
    (firstFastest axes).length = (axes.map List.length).prod := by
  induction axes with
  | nil => rfl
  | cons axis axes ih =>
      rw [firstFastest, List.length_flatMap]
      simp only [List.length_map, List.map_const', List.map_cons, List.prod_cons]
      rw [List.sum_replicate_nat, ih, Nat.mul_comm]

theorem nodup_firstFastest {axes : List (List β)}
    (h : ∀ axis ∈ axes, axis.Nodup) : (firstFastest axes).Nodup := by
  induction axes with
  | nil => exact List.nodup_singleton _
  | cons axis axes ih =>
      obtain ⟨haxis, haxes⟩ := List.forall_mem_cons.mp h
      rw [firstFastest, List.nodup_flatMap]
      constructor
      · intro rest _
        exact haxis.map fun x y hxy => (List.cons.inj hxy).1
      · -- Tuples from different rests differ in their rest.
        refine (ih haxes).imp ?_
        intro rest rest' hne tuple htuple htuple'
        obtain ⟨x, -, rfl⟩ := List.mem_map.mp htuple
        obtain ⟨y, -, heq⟩ := List.mem_map.mp htuple'
        exact hne (List.cons.inj heq).2.symm

end Tuple

/-- No factor is zero, so a product leaves its word as soon as one on the way to
it does. -/
theorem foldlM_countWord? {n : ℕ} (hn : n < countLimit) {factors : List ℕ}
    (h : ∀ factor ∈ factors, 1 ≤ factor) :
    factors.foldlM (fun n factor => countWord? (n * factor)) n =
      countWord? (n * factors.prod) := by
  induction factors generalizing n with
  | nil =>
      rw [List.prod_nil, Nat.mul_one, countWord?_of_lt hn]
      rfl
  | cons factor factors ih =>
      obtain ⟨-, hfactors⟩ := List.forall_mem_cons.mp h
      have hrest : 1 ≤ factors.prod := List.one_le_prod_of_one_le hfactors
      rw [List.foldlM_cons, List.prod_cons]
      by_cases hword : n * factor < countLimit
      · rw [countWord?_of_lt hword, Option.bind_eq_bind, Option.bind_some, ih hword hfactors,
          Nat.mul_assoc]
      · have hlimit : ¬ n * (factor * factors.prod) < countLimit := by
          have hle := Nat.le_mul_of_pos_right (n * factor) hrest
          rw [Nat.mul_assoc] at hle
          omega
        rw [countWord?, if_neg hword, countWord?, if_neg hlimit]
        rfl

/-! ## The tuples of a domain -/

namespace Domain

/-- The index tuples of a domain. -/
def tuples (d : Domain α) : List (List ℕ) :=
  Tuple.firstFastest (d.counts.map List.range)

theorem mem_tuples {d : Domain α} {tuple : List ℕ} :
    tuple ∈ d.tuples ↔ d.HasTuple tuple := by
  rw [tuples, Tuple.mem_firstFastest, List.forall₂_map_left_iff, HasTuple]
  simp only [List.mem_range]
  exact ⟨List.Forall₂.flip, List.Forall₂.flip⟩

theorem nodup_tuples (d : Domain α) : d.tuples.Nodup := by
  apply Tuple.nodup_firstFastest
  intro axis haxis
  obtain ⟨n, -, rfl⟩ := List.mem_map.mp haxis
  exact List.nodup_range

theorem length_tuples (d : Domain α) : d.tuples.length = d.counts.prod := by
  rw [tuples, Tuple.length_firstFastest, List.map_map]
  simp [Function.comp_def]

/-- The corner of first indices is a tuple of every domain. -/
theorem hasTuple_corner (d : Domain α) : d.HasTuple (d.counts.map fun _ => 0) := by
  rw [HasTuple, List.forall₂_map_left_iff, List.forall₂_same]
  intro n hn
  obtain ⟨v, -, rfl⟩ := List.mem_map.mp hn
  exact v.count_pos

end Domain

/-! ## The tuples of a box -/

namespace Box

/-- The index tuples of a box. -/
def tuples (b : Box α) : List (List ℕ) :=
  Tuple.firstFastest (b.extents.map fun e => List.range' e.lo (e.span + 1))

/-- The number of index tuples of a box. -/
def volume (b : Box α) : ℕ :=
  (b.extents.map fun e => e.span + 1).prod

theorem mem_tuples {b : Box α} {tuple : List ℕ} :
    tuple ∈ b.tuples ↔ b.contains tuple = true := by
  rw [tuples, Tuple.mem_firstFastest, List.forall₂_map_left_iff,
    contains_eq_true_iff]
  have hrange : ∀ (e : Extent) (j : ℕ),
      j ∈ List.range' e.lo (e.span + 1) ↔ e.Has j := by
    intro e j
    have hle := e.le
    simp only [List.mem_range'_1, Interval.span, Extent.Has]
    omega
  simp only [hrange]

theorem nodup_tuples (b : Box α) : b.tuples.Nodup := by
  apply Tuple.nodup_firstFastest
  intro axis haxis
  obtain ⟨e, -, rfl⟩ := List.mem_map.mp haxis
  exact List.nodup_range'

theorem length_tuples (b : Box α) : b.tuples.length = b.volume := by
  rw [tuples, Tuple.length_firstFastest, List.map_map, volume]
  simp [Function.comp_def]

theorem volume_pos (b : Box α) : 0 < b.volume := by
  rw [← length_tuples, List.length_pos_iff_exists_mem]
  exact ⟨b.lows, mem_tuples.mpr b.contains_lows⟩

theorem volume_eq_one_iff {b : Box α} : b.volume = 1 ↔ b.isPoint = true := by
  have hpoint : ∀ e : Extent, e.span + 1 = 1 ↔ e.isPoint = true := by
    intro e
    have hle := e.le
    simp only [Interval.span, Interval.isPoint, beq_iff_eq]
    omega
  rw [volume, ← Nat.isUnit_iff, List.prod_isUnit_iff, List.forall_mem_map]
  simp only [Nat.isUnit_iff, hpoint, isPoint, List.all_eq_true]

/-- Among tuples without repetition that include its own, a box holds as many
as its volume. -/
theorem countP_contains {b : Box α} {tuples : List (List ℕ)} (h : tuples.Nodup)
    (hb : ∀ tuple, b.contains tuple = true → tuple ∈ tuples) :
    tuples.countP (b.contains ·) = b.volume := by
  have hperm : (tuples.filter (b.contains ·)).Perm b.tuples := by
    rw [List.perm_ext_iff_of_nodup (h.filter _) b.nodup_tuples]
    intro tuple
    rw [List.mem_filter, mem_tuples]
    exact ⟨And.right, fun htuple => ⟨hb tuple htuple, htuple⟩⟩
  rw [List.countP_eq_length_filter, hperm.length_eq, length_tuples]

theorem sum_map_toNat {β : Type} (test : β → Bool) (xs : List β) :
    (xs.map fun x => (test x).toNat).sum = xs.countP test := by
  induction xs with
  | nil => rfl
  | cons x xs ih =>
      rw [List.map_cons, List.sum_cons, ih, List.countP_cons, Nat.add_comm]
      cases test x <;> rfl

/-- The volumes of boxes sum up to the number of boxes that hold each tuple. -/
theorem sum_volume {boxes : List (Box α)} {tuples : List (List ℕ)}
    (h : tuples.Nodup)
    (hboxes : ∀ b ∈ boxes, ∀ tuple, b.contains tuple = true → tuple ∈ tuples) :
    (boxes.map volume).sum = (tuples.map (holders boxes)).sum := by
  induction boxes with
  | nil =>
      have hzero : holders ([] : List (Box α)) = fun _ => 0 := funext holders_nil
      rw [hzero]
      simp
  | cons b boxes ih =>
      obtain ⟨hb, hboxes⟩ := List.forall_mem_cons.mp hboxes
      have hcons : holders (b :: boxes) =
          fun tuple => (b.contains tuple).toNat + holders boxes tuple :=
        funext (holders_cons b boxes)
      rw [List.map_cons, List.sum_cons, hcons, List.sum_map_add, sum_map_toNat,
        countP_contains h hb, ih hboxes]

theorem eq_one_of_sum_eq_length {xs : List ℕ} (hpos : ∀ x ∈ xs, 1 ≤ x)
    (hsum : xs.sum = xs.length) : ∀ x ∈ xs, x = 1 := by
  induction xs with
  | nil => nofun
  | cons x xs ih =>
      obtain ⟨hx, hxs⟩ := List.forall_mem_cons.mp hpos
      have hle := List.length_le_sum_of_one_le xs hxs
      rw [List.sum_cons, List.length_cons] at hsum
      refine List.forall_mem_cons.mpr ⟨by omega, ih hxs (by omega)⟩

end Box

/-! ## The volume of a partition -/

namespace Domain.PartitionedBy

variable {d : Domain α} {boxes : List (Box α)}

theorem sum_volume (h : d.PartitionedBy boxes) :
    (boxes.map Box.volume).sum = d.counts.prod := by
  have hone : d.tuples.map (Box.holders boxes) = d.tuples.map fun _ => 1 := by
    apply List.map_congr_left
    intro tuple htuple
    exact h.holders tuple (mem_tuples.mp htuple)
  rw [Box.sum_volume d.nodup_tuples fun b hb tuple htuple =>
    mem_tuples.mpr (h.inside b hb tuple htuple), hone]
  simp [length_tuples]

/-- A partition has no more boxes than the domain has tuples. -/
theorem length_le (h : d.PartitionedBy boxes) : boxes.length ≤ d.counts.prod := by
  rw [← h.sum_volume, ← List.length_map (f := Box.volume)]
  apply List.length_le_sum_of_one_le
  intro v hv
  obtain ⟨b, -, rfl⟩ := List.mem_map.mp hv
  exact b.volume_pos

/-- A partition into as many boxes as the domain has tuples has one box for
each tuple. -/
theorem isPoint_of_length_eq (h : d.PartitionedBy boxes)
    (hlen : boxes.length = d.counts.prod) : ∀ b ∈ boxes, b.isPoint = true := by
  have hpos : ∀ v ∈ boxes.map Box.volume, 1 ≤ v := by
    intro v hv
    obtain ⟨b, -, rfl⟩ := List.mem_map.mp hv
    exact b.volume_pos
  have hsum : (boxes.map Box.volume).sum = (boxes.map Box.volume).length := by
    rw [h.sum_volume, List.length_map, hlen]
  intro b hb
  rw [← Box.volume_eq_one_iff]
  exact Box.eq_one_of_sum_eq_length hpos hsum _ (List.mem_map_of_mem hb)

/-- Boxes that are single tuples are as many as the domain has tuples. -/
theorem length_eq_of_isPoint (h : d.PartitionedBy boxes)
    (hpoint : ∀ b ∈ boxes, b.isPoint = true) : boxes.length = d.counts.prod := by
  have hone : boxes.map Box.volume = boxes.map fun _ => 1 := by
    apply List.map_congr_left
    intro b hb
    exact Box.volume_eq_one_iff.mpr (hpoint b hb)
  rw [← h.sum_volume, hone]
  simp

end Domain.PartitionedBy

end IntervalProgramming
