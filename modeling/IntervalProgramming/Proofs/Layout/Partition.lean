import IntervalProgramming.Proofs.Layout.Volume
import IntervalProgramming.Proofs.Map.Overlap

/-!
# Partitions of a domain compared

The boxes of a partition are disjoint, so a tuple of the domain determines its
box.  Which tuples lie together in a box therefore determines the partition:
two partitions with the same pairs of tuples lying together have the same boxes
up to order.
-/

namespace IntervalProgramming

variable {α : Type} [Scalar α]

namespace Box

theorem intersects_self (b : Box α) : b.intersects b = true :=
  (intersects_iff_exists rfl).mpr ⟨b.lows, b.contains_lows, b.contains_lows⟩

/-- Boxes that hold each tuple at most once are disjoint. -/
theorem pairwise_clear {boxes : List (Box α)}
    (h : ∀ tuple, holders boxes tuple ≤ 1) :
    boxes.Pairwise fun b c => b.intersects c = false := by
  induction boxes with
  | nil => exact List.Pairwise.nil
  | cons b boxes ih =>
      have hcons : ∀ tuple,
          (b.contains tuple).toNat + holders boxes tuple ≤ 1 := by
        intro tuple
        rw [← holders_cons]
        exact h tuple
      refine List.pairwise_cons.mpr ⟨?_, ih fun tuple => ?_⟩
      · intro c hc
        apply intersects_eq_false
        intro tuple hb
        have hle := hcons tuple
        rw [hb, Bool.toNat_true] at hle
        rw [Bool.eq_false_iff]
        intro hct
        have hpos := holders_pos_iff.mpr ⟨c, hc, hct⟩
        omega
      · have hle := hcons tuple
        omega

/-- Two tuples lie together in a list of boxes: each box holds both of them or
neither. -/
def Together (boxes : List (Box α)) (tuple tuple' : List ℕ) : Prop :=
  ∀ b ∈ boxes, b.contains tuple = b.contains tuple'

end Box

namespace Domain.PartitionedBy

variable {d : Domain α} {boxes boxes' : List (Box α)} {b c : Box α}
  {tuple tuple' : List ℕ}

theorem holders_le_one (h : d.PartitionedBy boxes) (tuple : List ℕ) :
    Box.holders boxes tuple ≤ 1 := by
  rcases Nat.eq_zero_or_pos (Box.holders boxes tuple) with hzero | hpos
  · omega
  · obtain ⟨b, hb, hbt⟩ := Box.holders_pos_iff.mp hpos
    exact (h.holders tuple (h.inside b hb tuple hbt)).le

theorem pairwise_clear (h : d.PartitionedBy boxes) :
    boxes.Pairwise fun b c => b.intersects c = false :=
  Box.pairwise_clear h.holders_le_one

theorem exists_contains (h : d.PartitionedBy boxes) (htuple : d.HasTuple tuple) :
    ∃ b ∈ boxes, b.contains tuple = true := by
  rw [← Box.holders_pos_iff, h.holders tuple htuple]
  exact Nat.one_pos

/-- A tuple lies in one box of a partition only. -/
theorem eq_of_contains (h : d.PartitionedBy boxes) (hb : b ∈ boxes)
    (hc : c ∈ boxes) (hbt : b.contains tuple = true)
    (hct : c.contains tuple = true) : b = c := by
  have hone := h.holders tuple (h.inside b hb tuple hbt)
  rw [Box.holders, List.countP_eq_length_filter, List.length_eq_one_iff] at hone
  obtain ⟨x, hx⟩ := hone
  have hbx : b ∈ boxes.filter (·.contains tuple) := List.mem_filter.mpr ⟨hb, hbt⟩
  have hcx : c ∈ boxes.filter (·.contains tuple) := List.mem_filter.mpr ⟨hc, hct⟩
  rw [hx, List.mem_singleton] at hbx hcx
  rw [hbx, hcx]

/-- No two boxes of a partition have the same extents. -/
theorem nodup_extents (h : d.PartitionedBy boxes) :
    (boxes.map (·.extents)).Nodup := by
  rw [List.Nodup, List.pairwise_map]
  refine h.pairwise_clear.imp ?_
  intro b c hclear heq
  rw [Box.intersects_of_extents_eq heq, Box.intersects_self] at hclear
  cases hclear

/-- The box of a tuple holds the tuples that lie together with it. -/
theorem contains_iff_together (h : d.PartitionedBy boxes) (hb : b ∈ boxes)
    (hbt : b.contains tuple = true) :
    b.contains tuple' = true ↔ Box.Together boxes tuple tuple' := by
  constructor
  · intro hbt' c hc
    rw [Bool.eq_iff_iff]
    constructor
    · intro hct
      rwa [← h.eq_of_contains hb hc hbt hct]
    · intro hct'
      rwa [← h.eq_of_contains hb hc hbt' hct']
  · intro htogether
    rw [← htogether b hb, hbt]

theorem extents_mem_of_together (h : d.PartitionedBy boxes)
    (h' : d.PartitionedBy boxes')
    (htogether : ∀ tuple tuple', d.HasTuple tuple → d.HasTuple tuple' →
      (Box.Together boxes tuple tuple' ↔ Box.Together boxes' tuple tuple'))
    (hb : b ∈ boxes) : b.extents ∈ boxes'.map (·.extents) := by
  have hlows := h.inside b hb _ b.contains_lows
  obtain ⟨c, hc, hclows⟩ := h'.exists_contains hlows
  have hdim : c.dimensions = b.dimensions := by
    rw [h.full b hb, h'.full c hc]
  refine List.mem_map.mpr ⟨c, hc, Box.extents_eq_of_contains_iff hdim ?_⟩
  intro tuple
  constructor
  · intro hct
    have hin := h'.inside c hc tuple hct
    rw [h'.contains_iff_together hc hclows, ← htogether _ _ hlows hin] at hct
    exact (h.contains_iff_together hb b.contains_lows).mpr hct
  · intro hbt
    have hin := h.inside b hb tuple hbt
    rw [h.contains_iff_together hb b.contains_lows, htogether _ _ hlows hin] at hbt
    exact (h'.contains_iff_together hc hclows).mpr hbt

/-- A partition is determined by which tuples lie together. -/
theorem perm_extents_of_together (h : d.PartitionedBy boxes)
    (h' : d.PartitionedBy boxes')
    (htogether : ∀ tuple tuple', d.HasTuple tuple → d.HasTuple tuple' →
      (Box.Together boxes tuple tuple' ↔ Box.Together boxes' tuple tuple')) :
    (boxes.map (·.extents)).Perm (boxes'.map (·.extents)) := by
  rw [List.perm_ext_iff_of_nodup h.nodup_extents h'.nodup_extents]
  intro extents
  constructor
  · intro hmem
    obtain ⟨b, hb, rfl⟩ := List.mem_map.mp hmem
    exact h.extents_mem_of_together h' htogether hb
  · intro hmem
    obtain ⟨b, hb, rfl⟩ := List.mem_map.mp hmem
    refine h'.extents_mem_of_together h ?_ hb
    intro tuple tuple' htuple htuple'
    exact (htogether tuple tuple' htuple htuple').symm

end Domain.PartitionedBy

/-! ## Maps that partition a domain -/

namespace PiecewiseMap.Partitions

variable {d : Domain α} {m : PiecewiseMap α} {tuple : List ℕ}

theorem isFull (h : m.Partitions d) : m.IsFull := by
  rw [isFull_iff_dimensions, h.domain]
  exact h.boxes.full

theorem isDisjoint (h : m.Partitions d) : m.IsDisjoint :=
  h.boxes.pairwise_clear

theorem holds (h : m.Partitions d) (htuple : d.HasTuple tuple) :
    m.Holds tuple := by
  obtain ⟨b, hb, hbt⟩ := h.boxes.exists_contains htuple
  exact ⟨b, Array.mem_toList_iff.mp hb, hbt⟩

/-- A map that partitions a domain has a box: the corner of first indices needs
one. -/
theorem isEmpty_eq_false (h : m.Partitions d) :
    m.isEmpty = false := by
  obtain ⟨b, hb, -⟩ := h.holds d.hasTuple_corner
  rw [isEmpty, Bool.eq_false_iff, ne_eq, Array.isEmpty_iff]
  intro hempty
  rw [hempty] at hb
  exact absurd hb (Array.not_mem_empty b)

theorem size_le (h : m.Partitions d) : m.size ≤ d.counts.prod := by
  rw [size, ← Array.length_toList]
  exact h.boxes.length_le

/-- A map has as many boxes as the domain has tuples exactly if each box is a
single tuple. -/
theorem size_eq_iff (h : m.Partitions d) :
    m.size = d.counts.prod ↔ ∀ b ∈ m.boxes, b.isPoint = true := by
  simp only [size, ← Array.length_toList, ← Array.mem_toList_iff]
  exact ⟨h.boxes.isPoint_of_length_eq, h.boxes.length_eq_of_isPoint⟩

end PiecewiseMap.Partitions

/-! ## Partitions of the switch -/

theorem Box.contains_onSwitch (i : Interval) (x : ℚ) (tuple : List ℕ) :
    (onSwitch i x).contains tuple = Extent.hold [{ i with dim := 0 }] tuple :=
  contains_eq_hold _ tuple

/-- Boxes of the switch partition it if their intervals hold each of the two
indices once and no other. -/
theorem Domain.partitionedBy_switch (values : List (Interval × ℚ))
    (h : ∀ j, values.countP (·.1.contains j) = (Interval.switch.contains j).toNat) :
    Domain.switch.PartitionedBy (values.map fun v => Box.onSwitch v.1 v.2) := by
  have hwhole : Box.universe? Domain.switch = some (Box.onSwitch Interval.switch 0) := rfl
  rw [Box.partitionedBy_iff hwhole]
  refine ⟨fun b hb => ?_, fun tuple => ?_⟩
  · obtain ⟨v, -, rfl⟩ := List.mem_map.mp hb
    rfl
  · rw [Box.holders, List.countP_map]
    simp only [Function.comp_def, Box.contains_onSwitch]
    rcases tuple with _ | ⟨j, _ | ⟨k, rest⟩⟩
    · simp
    · simpa using h j
    · simp

end IntervalProgramming
