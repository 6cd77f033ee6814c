import Mathlib.Data.Set.Card
import IntervalProgramming.Proofs.Box.Difference
import IntervalProgramming.Proofs.Layout.Volume
import IntervalProgramming.Proofs.Refine.Cuts

/-!
# Counts of tuples in words

The count of a box is computed in a count word.  No factor is zero, so no product
on the way leaves its word as long as the number of tuples is itself a word, and
then that number is the count.  Every part of the box has an exact count as well,
so the counts of the two halves of a cut, and those of a difference and the
intersection, sum up to that of the box.  A box with more tuples than there are
count words has no count.
-/

namespace IntervalProgramming.Box

variable {α : Type} [Scalar α]

/-! ## Tuples -/

/-- The number of index tuples that a box accepts. -/
noncomputable def tupleCount (b : Box α) : ℕ :=
  {tuple | b.contains tuple = true}.ncard

theorem tupleCount_eq_volume (b : Box α) : b.tupleCount = b.volume := by
  have htuples : {tuple | b.contains tuple = true} = (b.tuples.toFinset : Set (List ℕ)) := by
    ext tuple
    rw [Finset.mem_coe, List.mem_toFinset, mem_tuples]
    rfl
  rw [tupleCount, htuples, Set.ncard_coe_finset, List.toFinset_card_of_nodup b.nodup_tuples,
    length_tuples]

/-- Boxes that hold every tuple of a box once, and no other, have as many tuples
as the box. -/
theorem sum_volume_of_holders {b : Box α} {parts : List (Box α)}
    (h : ∀ tuple, holders parts tuple = (b.contains tuple).toNat) :
    (parts.map volume).sum = b.volume := by
  have hinside : ∀ part ∈ parts, ∀ tuple, part.contains tuple = true →
      tuple ∈ b.tuples := by
    intro part hpart tuple htuple
    exact mem_tuples.mpr (eq_true_of_holders (h tuple) hpart htuple)
  have hone : b.tuples.map (holders parts) = b.tuples.map fun _ => 1 := by
    apply List.map_congr_left
    intro tuple htuple
    rw [h, mem_tuples.mp htuple, Bool.toNat_true]
  rw [sum_volume b.nodup_tuples hinside, hone, ← length_tuples]
  simp

theorem holders_cut? {b lower upper : Box α} {k : ℕ}
    (h : b.cut? k = some (lower, upper)) (tuple : List ℕ) :
    holders [lower, upper] tuple = (b.contains tuple).toNat := by
  rw [holders_cons, holders_cons, holders_nil, Nat.add_zero, toNat_contains_cut? h]

/-- The parts outside another box and the intersection with it hold every tuple
once. -/
theorem holders_subtract_meet? (b c : Box α) (tuple : List ℕ) :
    holders (b.subtract c ++ (b.meet? c).toList) tuple = (b.contains tuple).toNat := by
  rw [holders_append]
  cases hmeet : b.meet? c with
  | none =>
      have hclear : b.intersects c = false := by
        rw [← meetAs?_isSome b c .linear, ← meet?, hmeet, Option.isSome_none]
      rw [subtract_of_clear hclear, holders_cons]
      rfl
  | some r =>
      have hdim : b.dimensions = c.dimensions := (meetAs?_eq_some_iff.mp hmeet).1
      have hr : r.contains tuple = (b.contains tuple && c.contains tuple) := by
        rw [Bool.eq_iff_iff, Bool.and_eq_true]
        exact contains_meetAs? hmeet tuple
      rw [holders_subtract hdim, Option.toList_some, holders_cons, holders_nil, hr]
      cases b.contains tuple
      · rfl
      · cases c.contains tuple <;> rfl

/-! ## Words -/

theorem volume_eq_prod_spans (b : Box α) : b.volume = (b.spans.map (· + 1)).prod := by
  rw [volume, spans, List.map_map]
  rfl

/-- The count of a box is its number of tuples, if that is a word. -/
theorem pointCount?_eq (b : Box α) : b.pointCount? = countWord? b.volume := by
  have hfactors : ∀ factor ∈ b.spans.map (· + 1), 1 ≤ factor :=
    List.forall_mem_map.mpr fun span _ => Nat.le_add_left 1 span
  have hcount := foldlM_countWord? (by decide : 1 < countLimit) hfactors
  rw [List.foldlM_map, Nat.one_mul] at hcount
  rw [pointCount?, hcount, volume_eq_prod_spans]

/-- The sum of the counts of some boxes, if all of them have one.  The sum itself
may be larger than a word. -/
def countSum? (parts : List (Box α)) : Option ℕ :=
  (parts.mapM pointCount?).map List.sum

/-! ## Exact counts -/

/-- Whether the count of a box is the number of its tuples, so that no product on
the way leaves its word, and is conserved by cuts and differences. -/
structure CountsExactly (b : Box α) : Prop where
  exact : b.pointCount? = some b.tupleCount
  cut : ∀ {k lower upper}, b.cut? k = some (lower, upper) →
    countSum? [lower, upper] = b.pointCount?
  subtract : ∀ c : Box α,
    countSum? (b.subtract c ++ (b.meet? c).toList) = b.pointCount?

/-- Parts of a box that hold every tuple of it once have counts that sum up to
its own. -/
theorem countSum?_of_holders {b : Box α} {parts : List (Box α)}
    (hb : b.volume < countLimit)
    (h : ∀ tuple, holders parts tuple = (b.contains tuple).toNat) :
    countSum? parts = b.pointCount? := by
  have hsum := sum_volume_of_holders h
  have hparts : ∀ part ∈ parts, part.pointCount? = some part.volume := by
    intro part hpart
    have hle := List.le_sum_of_mem (List.mem_map_of_mem (f := volume) hpart)
    rw [pointCount?_eq, countWord?_of_lt (by omega)]
  rw [countSum?, mapM_eq_some_map hparts, Option.map_some, hsum, pointCount?_eq,
    countWord?_of_lt hb]

/-- A box counts exactly if and only if the number of its tuples is a count word. -/
theorem countsExactly_iff (b : Box α) : b.CountsExactly ↔ b.tupleCount < countLimit := by
  rw [tupleCount_eq_volume]
  constructor
  · intro h
    by_contra hb
    have hexact := h.exact
    rw [pointCount?_eq, countWord?, if_neg hb] at hexact
    cases hexact
  · intro hb
    refine ⟨?_, ?_, ?_⟩
    · rw [pointCount?_eq, countWord?_of_lt hb, tupleCount_eq_volume]
    · intro k lower upper hcut
      exact countSum?_of_holders hb (holders_cut? hcut)
    · intro c
      exact countSum?_of_holders hb (holders_subtract_meet? b c)

/-- The box of sixteen bits of indices along each of four dimensions. -/
def tesseract : Box ℚ :=
  flat ((List.range 4).map fun dim => { lo := 0, hi := 65535, dim := dim })

/-- The tesseract has one tuple more than the largest count, so it has no count.
Its halves have one each. -/
theorem pointCount?_tesseract :
    increasing tesseract.extents = true ∧ tesseract.InWords ∧
      tesseract.tupleCount = 18446744073709551616 ∧ tesseract.pointCount? = none ∧
      (tesseract.cut? 0).bind (fun (lower, upper) => countSum? [lower, upper]) =
        some 18446744073709551616 := by
  have hvolume : tesseract.volume = 18446744073709551616 := by decide
  refine ⟨by decide, by decide, ?_, by decide, by decide⟩
  rw [tupleCount_eq_volume, hvolume]

end IntervalProgramming.Box
