import IntervalProgramming.Proofs.Box.Difference
import IntervalProgramming.Proofs.Fit.Lattice
import IntervalProgramming.Proofs.Map.Overlap

/-!
# Sampling in words

The samples of an interval are found by a product, a sum and a division in count
words, and the quotient is added to the first index in an index word.  No more
samples are taken than there are indices, so the product of two index words is the
largest number on the way: nothing leaves its word, for any number of samples asked
for.  The number of check samples is formed before it is cut down in this way.
Twice the number of samples leaves its word exactly if that number has the highest
bit of a count word.
-/

namespace IntervalProgramming

variable {α : Type} [Scalar α]

namespace Interval

/-- Index number `k` of `n` evenly spaced ones, computed in words; `none` if a
number leaves its word or there is nothing to divide by. -/
def sampleInWords? (i : Interval) (n k : ℕ) : Option ℕ := do
  let product ← countWord? (k * i.span)
  let sum ← countWord? (product + (n - 1) / 2)
  let quotient ← if 0 < n - 1 then indexWord? (sum / (n - 1)) else none
  indexWord? (i.lo + quotient)

/-- The samples of an interval, computed in words. -/
def samplesInWords? (i : Interval) (n : ℕ) : Option (List ℕ) :=
  if i.isPoint then some [i.lo]
  else do
    let all ← countWord? (i.span + 1)
    let taken := min (max n 2) all
    let js ← (List.range taken).mapM (i.sampleInWords? taken)
    some (dropRepeats js)

variable {i : Interval} {n k : ℕ}

theorem sample_le_hi (hn : 2 ≤ n) (hspan : n ≤ i.span + 1) (hk : k < n) :
    i.sample n k ≤ i.hi := by
  rw [← i.sample_last hn]
  exact (strictMono_sample hn hspan).monotone (Nat.le_sub_one_of_lt hk)

theorem sampleInWords?_eq (hword : i.hi ≤ maxIndex) (hn : 2 ≤ n) (hspan : n ≤ i.span + 1)
    (hk : k < n) : i.sampleInWords? n k = some (i.sample n k) := by
  have hhi := i.lo_add_span
  have hle := sample_le_hi hn hspan hk
  rw [sample] at hle
  rw [maxIndex_eq] at hword
  have hindex : indexLimit = 4294967296 := rfl
  have hcount : countLimit = 18446744073709551616 := rfl
  have hproduct : k * i.span ≤ 4294967295 * 4294967295 :=
    Nat.mul_le_mul (by omega) (by omega)
  rw [sampleInWords?, countWord?_of_lt (by omega)]
  simp only [Option.bind_eq_bind, Option.bind_some]
  rw [countWord?_of_lt (by omega), Option.bind_some, if_pos (by omega),
    indexWord?_of_lt (by omega), Option.bind_some, indexWord?_of_lt (by omega), sample]

/-- However many samples are asked for, no number leaves its word. -/
theorem samplesInWords?_eq (hword : i.hi ≤ maxIndex) (n : ℕ) :
    i.samplesInWords? n = some (i.samples n) := by
  rw [samplesInWords?, samples]
  split
  · rfl
  · rename_i hpoint
    rw [isPoint_iff_span] at hpoint
    have hhi := i.lo_add_span
    have hall : i.span + 1 < countLimit := by
      rw [maxIndex_eq] at hword
      have hcount : countLimit = 18446744073709551616 := rfl
      omega
    have hsample : ∀ k ∈ List.range (min (max n 2) (i.span + 1)),
        i.sampleInWords? (min (max n 2) (i.span + 1)) k =
          some (i.sample (min (max n 2) (i.span + 1)) k) := by
      intro k hk
      exact sampleInWords?_eq hword (by omega) (Nat.min_le_right _ _) (List.mem_range.mp hk)
    simp only [countWord?_of_lt hall, Option.bind_eq_bind, Option.bind_some,
      mapM_eq_some_map hsample]

theorem samples_max (i : Interval) (n : ℕ) : i.samples (max n 2) = i.samples n := by
  rw [samples, samples, max_assoc, max_self]

theorem bounds_of_mem_samples {j : ℕ} (h : j ∈ i.samples n) : i.lo ≤ j ∧ j ≤ i.hi := by
  rw [← samples_max] at h
  exact (i.spreadOver_samples (Nat.le_max_right n 2)).bounds h

end Interval

namespace Regressor

/-- The samples and the check samples along each extent of a box, as a fit finds
them in words: the number of check samples is formed anew for each extent. -/
def samplingInWords? (r : Regressor α) (b : Box α) :
    Option (List (List ℕ) × List (List ℕ)) := do
  let axes ← b.extents.mapM fun e => e.samplesInWords? r.samples
  let checkAxes ← b.extents.mapM fun e => do
    let n ← r.checkSamplesInWords?
    e.samplesInWords? n
  some (axes, checkAxes)

variable {r : Regressor α} {b : Box α}

theorem checkSamplesInWords?_eq (hn : 2 ≤ r.samples) :
    r.checkSamplesInWords? =
      if r.samples < 2 ^ 63 then some (2 * r.samples - 1) else none := by
  have hcount : countLimit = 2 * 2 ^ 63 := rfl
  rw [checkSamplesInWords?]
  split
  · rw [countWord?_of_lt (by omega), Option.bind_eq_bind, Option.bind_some,
      if_pos (by omega)]
  · rw [countWord?, if_neg (by omega)]
    rfl

theorem samplingInWords?_eq (hn : 2 ≤ r.samples) (hb : b.InWords) :
    r.samplingInWords? b =
      if b.extents = [] ∨ r.samples < 2 ^ 63 then
        some (b.sampleAxes r.samples, b.sampleAxes (2 * r.samples - 1))
      else none := by
  have hsamples : ∀ n, ∀ e ∈ b.extents, e.samplesInWords? n = some (e.samples n) :=
    fun n e he => Interval.samplesInWords?_eq (hb e he).2 n
  rw [samplingInWords?, mapM_eq_some_map (hsamples r.samples), checkSamplesInWords?_eq hn]
  by_cases hword : r.samples < 2 ^ 63
  · rw [if_pos hword, if_pos (Or.inr hword)]
    simp only [Option.bind_eq_bind, Option.bind_some,
      mapM_eq_some_map (hsamples (2 * r.samples - 1))]
    rfl
  · rw [if_neg hword, Box.sampleAxes, Box.sampleAxes]
    cases b.extents with
    | nil => rfl
    | cons e es =>
        rw [if_neg (not_or.mpr ⟨List.cons_ne_nil e es, hword⟩)]
        rfl

/-- A fit has a result in words unless it computes a number of check samples that
leaves its word. -/
theorem fitInWords?_eq (hn : 2 ≤ r.samples) (b : Box α) :
    r.fitInWords? b =
      if b.extents = [] ∨ r.samples < 2 ^ 63 then some (r.fit b) else none := by
  rw [fitInWords?, checkSamplesInWords?_eq hn]
  by_cases hword : r.samples < 2 ^ 63
  · rw [if_pos hword, if_pos (Or.inr hword), mapM_eq_some_map fun _ _ => rfl, Option.map_some]
  · rw [if_neg hword]
    cases b.extents with
    | nil => rfl
    | cons e es =>
        rw [if_neg (not_or.mpr ⟨List.cons_ne_nil e es, hword⟩)]
        rfl

/-- Whether the number of check samples of a regressor is a count word. -/
structure InWords (r : Regressor α) : Prop where
  two_le : 2 ≤ r.samples
  lt : r.samples < 2 ^ 63

theorem InWords.fitInWords?_eq (h : r.InWords) (b : Box α) :
    r.fitInWords? b = some (r.fit b) := by
  rw [Regressor.fitInWords?_eq h.two_le, if_pos (Or.inr h.lt)]

/-- A fit samples a box in words.  No number leaves its word on the way to the
samples along an extent, however many are asked for, and they lie between its ends.  The check
samples are found as well, and the fit has a result, if and only if the box has no
extent or the number asked for is below half the number of count words: else twice
that number leaves its word. -/
theorem samplingInWords?_iff (solver : LinearSolver α) (o : Objective α) (degree : Degree)
    (n : ℕ) (hb : b.InWords) :
    (∀ e ∈ b.extents, ∀ n, e.samplesInWords? n = some (e.samples n) ∧
      ∀ j ∈ e.samples n, e.lo ≤ j ∧ j ≤ e.hi) ∧
    ((forObjective solver o degree n).samplingInWords? b =
        some (b.sampleAxes (max n 2), b.sampleAxes (2 * max n 2 - 1)) ↔
      b.extents = [] ∨ n < 2 ^ 63) ∧
    ((forObjective solver o degree n).fitInWords? b =
        some ((forObjective solver o degree n).fit b) ↔
      b.extents = [] ∨ n < 2 ^ 63) := by
  have hsamples : (forObjective solver o degree n).samples = max n 2 := rfl
  have hiff : max n 2 < 2 ^ 63 ↔ n < 2 ^ 63 := by omega
  refine ⟨fun e he n => ?_, ?_, ?_⟩
  · exact ⟨Interval.samplesInWords?_eq (hb e he).2 n,
      fun j hj => Interval.bounds_of_mem_samples hj⟩
  · rw [samplingInWords?_eq (Nat.le_max_right n 2) hb, hsamples, ← hiff]
    split
    · exact iff_of_true rfl ‹_›
    · exact iff_of_false nofun ‹_›
  · rw [fitInWords?_eq (Nat.le_max_right n 2), hsamples, ← hiff]
    split
    · exact iff_of_true rfl ‹_›
    · exact iff_of_false nofun ‹_›

/-- All columns of the plate. -/
def plateColumns : Box ℚ :=
  Box.ofIntervals [{ lo := 0, hi := 9 }]

/-- The sum of the coordinates of the plate, fitted by constants. -/
def plateLevels (samples : ℕ) : Regressor ℚ :=
  forObjective leastSquares ⟨Domain.plate, List.sum⟩ .constant samples

/-- Seven samples and thirteen check samples are found on ten columns. -/
theorem samplingInWords?_plateColumns :
    plateColumns.InWords ∧
      (plateLevels 7).samplingInWords? plateColumns =
        some (plateColumns.sampleAxes 7, plateColumns.sampleAxes 13) ∧
      (plateLevels 7).fitInWords? plateColumns = some ((plateLevels 7).fit plateColumns) := by
  have hb : plateColumns.InWords := by decide
  obtain ⟨-, hsampling, hfit⟩ :=
    samplingInWords?_iff leastSquares ⟨Domain.plate, List.sum⟩ .constant 7 hb
  exact ⟨hb, hsampling.mpr (Or.inr (by decide)), hfit.mpr (Or.inr (by decide))⟩

/-- With one sample more than half the number of count words, there would be one
check sample more than there are count words, and the fit has no result. -/
theorem samplingInWords?_half_limit :
    plateColumns.InWords ∧
      (plateLevels (2 ^ 63 + 1)).checkSamples = 2 ^ 64 + 1 ∧
      (plateLevels (2 ^ 63 + 1)).samplingInWords? plateColumns = none ∧
      (plateLevels (2 ^ 63 + 1)).fitInWords? plateColumns = none := by
  refine ⟨by decide, by decide, ?_, ?_⟩
  · rw [samplingInWords?_eq (by decide) (by decide)]
    exact if_neg (by decide)
  · rw [fitInWords?_eq (by decide)]
    exact if_neg (by decide)

end Regressor

end IntervalProgramming
