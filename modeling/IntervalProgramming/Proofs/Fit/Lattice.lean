import Mathlib.Data.List.Perm.Basic
import IntervalProgramming.Fit.Regressor
import IntervalProgramming.Proofs.Layout.Volume

/-!
# Sample lattices

The samples of an interval go up from its first to its last index, and twice as
many of them less one hold them all: every other index of the finer samples is
one of the coarser.  So the samples of a box lie on its check lattice, and the
samples together with the check tuples that are none are that lattice, each
tuple once.
-/

namespace IntervalProgramming

variable {α : Type} [Scalar α]

/-! ## Samples of an interval -/

theorem dropRepeats_of_pairwise {js : List ℕ} (h : js.Pairwise (· < ·)) :
    dropRepeats js = js := by
  induction js with
  | nil => rfl
  | cons j js ih =>
      obtain ⟨hj, hjs⟩ := List.pairwise_cons.mp h
      have hcons : dropRepeats (j :: js) = consNew j (dropRepeats js) := rfl
      rw [hcons, ih hjs]
      cases js with
      | nil => rfl
      | cons k rest => exact if_neg (hj k List.mem_cons_self).ne

namespace Interval

/-- Indices that go up strictly from the first to the last index of an interval,
so many of them, or all if the interval has no more. -/
structure SpreadOver (i : Interval) (count : ℕ) (js : List ℕ) : Prop where
  increasing : js.Pairwise (· < ·)
  first : js.head? = some i.lo
  last : js.getLast? = some i.hi
  length : js.length = min count (i.span + 1)

variable {i : Interval} {n k : ℕ}

theorem lo_add_span (i : Interval) : i.lo + i.span = i.hi := by
  have hle := i.le
  simp only [span]
  omega

theorem isPoint_iff_span : i.isPoint = true ↔ i.span = 0 := by
  have hle := i.le
  simp only [isPoint, beq_iff_eq, span]
  omega

/-- No more samples than indices: each is at least one index after the one
before. -/
theorem strictMono_sample (hn : 2 ≤ n) (hspan : n ≤ i.span + 1) :
    StrictMono (i.sample n) := by
  refine strictMono_nat_of_lt_succ fun k => ?_
  have hstep : k * i.span + (n - 1) / 2 + (n - 1) ≤
      (k + 1) * i.span + (n - 1) / 2 := by
    rw [Nat.succ_mul]
    omega
  have hdiv := Nat.div_le_div_right (c := n - 1) hstep
  rw [Nat.add_div_right _ (by omega)] at hdiv
  simp only [sample]
  omega

theorem sample_zero (hn : 2 ≤ n) : i.sample n 0 = i.lo := by
  rw [sample, Nat.zero_mul, Nat.zero_add, Nat.div_eq_of_lt (by omega), Nat.add_zero]

theorem sample_last (hn : 2 ≤ n) : i.sample n (n - 1) = i.hi := by
  have hpos : 0 < n - 1 := by omega
  have hhalf : (n - 1) / 2 < n - 1 := Nat.div_lt_self hpos Nat.one_lt_two
  rw [sample, Nat.add_comm (_ * _), Nat.add_mul_div_left _ _ hpos,
    Nat.div_eq_of_lt hhalf, Nat.zero_add, lo_add_span]

/-- Every other one of the finer samples is one of the coarser. -/
theorem sample_double (hn : 2 ≤ n) (k : ℕ) :
    i.sample (2 * n - 1) (2 * k) = i.sample n k := by
  have hfine : 2 * n - 1 - 1 = 2 * (n - 1) := by omega
  have hhalf : (2 * k * i.span + 2 * (n - 1) / 2) / 2 =
      k * i.span + (n - 1) / 2 := by
    rw [Nat.mul_assoc]
    omega
  rw [sample, hfine, ← Nat.div_div_eq_div_mul, hhalf, sample]

/-- As many samples as there are indices are all of them. -/
theorem sample_all (hspan : i.span ≠ 0) (k : ℕ) :
    i.sample (i.span + 1) k = i.lo + k := by
  have hpos : 0 < i.span := Nat.pos_of_ne_zero hspan
  have hhalf : i.span / 2 < i.span := Nat.div_lt_self hpos Nat.one_lt_two
  rw [sample, Nat.add_sub_cancel, Nat.add_comm (k * _), Nat.add_mul_div_right _ _ hpos,
    Nat.div_eq_of_lt hhalf, Nat.zero_add]

/-- Unless an interval is a single index, its samples are evenly spaced ones,
with no repetition to drop. -/
theorem samples_eq (hspan : i.span ≠ 0) (hn : 2 ≤ n) :
    i.samples n =
      (List.range (min n (i.span + 1))).map (i.sample (min n (i.span + 1))) := by
  have hpoint : ¬ i.isPoint = true := by rwa [isPoint_iff_span]
  rw [samples, if_neg hpoint, max_eq_left hn]
  apply dropRepeats_of_pairwise
  rw [List.pairwise_map]
  have hmono : StrictMono (i.sample (min n (i.span + 1))) :=
    strictMono_sample (by omega) (Nat.min_le_right _ _)
  exact List.pairwise_lt_range.imp fun hlt => hmono hlt

theorem samples_of_span_eq_zero (hspan : i.span = 0) (n : ℕ) : i.samples n = [i.lo] :=
  if_pos (isPoint_iff_span.mpr hspan)

theorem spreadOver_samples (i : Interval) (hn : 2 ≤ n) :
    i.SpreadOver n (i.samples n) := by
  by_cases hspan : i.span = 0
  · rw [samples_of_span_eq_zero hspan]
    have hhi := i.lo_add_span
    refine ⟨List.pairwise_singleton _ _, rfl, ?_, ?_⟩
    · rw [← hhi, hspan]
      rfl
    · rw [hspan, List.length_singleton]
      omega
  · set taken := min n (i.span + 1) with htaken
    have htwo : 2 ≤ taken := by omega
    have hmono : StrictMono (i.sample taken) :=
      strictMono_sample htwo (Nat.min_le_right _ _)
    rw [samples_eq hspan hn, ← htaken]
    refine ⟨?_, ?_, ?_, ?_⟩
    · rw [List.pairwise_map]
      exact List.pairwise_lt_range.imp fun hlt => hmono hlt
    · rw [List.head?_map, List.head?_range, if_neg (by omega), Option.map_some,
        sample_zero htwo]
    · rw [List.getLast?_map, List.getLast?_range, if_neg (by omega), Option.map_some,
        sample_last htwo]
    · rw [List.length_map, List.length_range]

theorem nodup_samples (i : Interval) (hn : 2 ≤ n) : (i.samples n).Nodup :=
  (i.spreadOver_samples hn).increasing.imp Nat.ne_of_lt

theorem lo_mem_samples (i : Interval) (hn : 2 ≤ n) : i.lo ∈ i.samples n :=
  List.mem_of_mem_head? (i.spreadOver_samples hn).first

theorem hi_mem_samples (i : Interval) (hn : 2 ≤ n) : i.hi ∈ i.samples n :=
  List.mem_of_getLast? (i.spreadOver_samples hn).last

theorem SpreadOver.bounds {count : ℕ} {js : List ℕ} (h : i.SpreadOver count js)
    {j : ℕ} (hj : j ∈ js) : i.lo ≤ j ∧ j ≤ i.hi := by
  have hincreasing := h.increasing
  obtain ⟨rest, hrest⟩ := List.head?_eq_some_iff.mp h.first
  obtain ⟨front, hfront⟩ := List.getLast?_eq_some_iff.mp h.last
  constructor
  · rw [hrest] at hj hincreasing
    rcases List.mem_cons.mp hj with rfl | hj
    · exact le_rfl
    · exact ((List.pairwise_cons.mp hincreasing).1 j hj).le
  · rw [hfront] at hj hincreasing
    rcases List.mem_append.mp hj with hj | hj
    · obtain ⟨-, -, hlast⟩ := List.pairwise_append.mp hincreasing
      exact (hlast j hj i.hi (List.mem_singleton_self _)).le
    · exact (List.mem_singleton.mp hj).le

/-- If no fewer samples than indices are asked for, every index is one. -/
theorem mem_samples_of_span_lt {j : ℕ} (hspan : i.span < n) (hlo : i.lo ≤ j)
    (hhi : j ≤ i.hi) : j ∈ i.samples n := by
  have hend := i.lo_add_span
  by_cases hzero : i.span = 0
  · rw [samples_of_span_eq_zero hzero, List.mem_singleton]
    omega
  · rw [samples_eq hzero (by omega), Nat.min_eq_right (by omega), List.mem_map]
    refine ⟨j - i.lo, List.mem_range.mpr (by omega), ?_⟩
    rw [sample_all hzero]
    omega

/-- The samples are among the finer ones. -/
theorem samples_subset (i : Interval) (hn : 2 ≤ n) :
    i.samples n ⊆ i.samples (2 * n - 1) := by
  have hfine : 2 ≤ 2 * n - 1 := by omega
  intro j hj
  by_cases hspan : i.span = 0
  · rw [samples_of_span_eq_zero hspan] at hj ⊢
    exact hj
  · by_cases hfew : 2 * n - 1 ≤ i.span + 1
    · rw [samples_eq hspan hn, Nat.min_eq_left (by omega), List.mem_map] at hj
      obtain ⟨k, hk, rfl⟩ := hj
      rw [samples_eq hspan hfine, Nat.min_eq_left hfew, List.mem_map]
      rw [List.mem_range] at hk
      exact ⟨2 * k, List.mem_range.mpr (by omega), sample_double hn k⟩
    · obtain ⟨hlo, hhi⟩ := (i.spreadOver_samples hn).bounds hj
      exact mem_samples_of_span_lt (by omega) hlo hhi

end Interval

/-! ## Products of lists -/

namespace Tuple

variable {β : Type}

/-- The two products hold the same tuples. -/
theorem perm_lastFastest (axes : List (List β)) :
    (lastFastest axes).Perm (firstFastest axes) := by
  induction axes with
  | nil => exact List.Perm.refl _
  | cons axis axes ih =>
      have hswap : ∀ tuples : List (List β),
          (axis.flatMap fun x => tuples.map fun tuple => x :: tuple).Perm
            (tuples.flatMap fun tuple => axis.map fun x => x :: tuple) := by
        intro tuples
        induction axis with
        | nil => simp
        | cons x axis ihaxis =>
            rw [List.flatMap_cons]
            simp only [List.map_cons]
            exact (ihaxis.append_left _).trans (List.map_append_flatMap_perm _ _ _)
      exact (hswap (lastFastest axes)).trans (ih.flatMap_right _)

theorem mem_lastFastest {axes : List (List β)} {tuple : List β} :
    tuple ∈ lastFastest axes ↔ List.Forall₂ (fun axis x => x ∈ axis) axes tuple := by
  rw [(perm_lastFastest axes).mem_iff, mem_firstFastest]

theorem length_lastFastest (axes : List (List β)) :
    (lastFastest axes).length = (axes.map List.length).prod := by
  rw [(perm_lastFastest axes).length_eq, length_firstFastest]

theorem nodup_lastFastest {axes : List (List β)} (h : ∀ axis ∈ axes, axis.Nodup) :
    (lastFastest axes).Nodup :=
  (perm_lastFastest axes).nodup_iff.mpr (nodup_firstFastest h)

end Tuple

/-! ## Samples of a box -/

/-- The first index of each extent is a sample. -/
theorem Extent.forall₂_lo_mem_samples (es : List Extent) {n : ℕ} (hn : 2 ≤ n) :
    List.Forall₂ (fun e j => j ∈ e.samples n) es (es.map (·.lo)) := by
  rw [List.forall₂_map_right_iff, List.forall₂_same]
  exact fun e _ => e.lo_mem_samples hn

namespace Box

variable {b : Box α} {n : ℕ}

theorem mem_sampleTuples {tuple : List ℕ} :
    tuple ∈ b.sampleTuples n ↔
      List.Forall₂ (fun e j => j ∈ e.samples n) b.extents tuple := by
  rw [sampleTuples, Tuple.mem_lastFastest, sampleAxes, List.forall₂_map_left_iff]

theorem lows_mem_sampleTuples (b : Box α) (hn : 2 ≤ n) : b.lows ∈ b.sampleTuples n :=
  mem_sampleTuples.mpr (Extent.forall₂_lo_mem_samples b.extents hn)

theorem length_sampleTuples (b : Box α) (hn : 2 ≤ n) :
    (b.sampleTuples n).length = (b.extents.map fun e => min n (e.span + 1)).prod := by
  rw [sampleTuples, Tuple.length_lastFastest, sampleAxes, List.map_map]
  exact congrArg _ (List.map_congr_left fun e _ => (e.spreadOver_samples hn).length)

theorem nodup_sampleTuples (b : Box α) (hn : 2 ≤ n) : (b.sampleTuples n).Nodup := by
  apply Tuple.nodup_lastFastest
  rw [sampleAxes, List.forall_mem_map]
  exact fun e _ => e.nodup_samples hn

theorem contains_of_mem_sampleTuples (hn : 2 ≤ n) {tuple : List ℕ}
    (h : tuple ∈ b.sampleTuples n) : b.contains tuple = true := by
  rw [contains_eq_true_iff]
  refine (mem_sampleTuples.mp h).imp fun e j hj => ?_
  exact (e.spreadOver_samples hn).bounds hj

/-- The samples are on the check lattice. -/
theorem sampleTuples_subset (b : Box α) (hn : 2 ≤ n) :
    b.sampleTuples n ⊆ b.sampleTuples (2 * n - 1) := by
  intro tuple htuple
  rw [mem_sampleTuples] at htuple ⊢
  exact htuple.imp fun e j hj => e.samples_subset hn hj

/-- Whether every index of a tuple is a sample along its extent. -/
def onSamples (b : Box α) (n : ℕ) (tuple : List ℕ) : Bool :=
  (tuple.zip (b.sampleAxes n)).all fun (j, axis) => axis.contains j

theorem onSamples_eq_true_iff {tuple : List ℕ} (hlen : tuple.length = b.extents.length) :
    b.onSamples n tuple = true ↔ tuple ∈ b.sampleTuples n := by
  have hzip : tuple ∈ b.sampleTuples n ↔
      List.Forall₂ (fun j axis => j ∈ axis) tuple (b.sampleAxes n) := by
    rw [sampleTuples, Tuple.mem_lastFastest]
    exact ⟨List.Forall₂.flip, List.Forall₂.flip⟩
  have hlen' : tuple.length = (b.sampleAxes n).length := by
    rw [sampleAxes, List.length_map, hlen]
  rw [hzip, List.forall₂_iff_zip, onSamples, List.all_eq_true]
  simp only [Prod.forall, List.contains_iff_mem, hlen', true_and]

/-- The check tuples that are samples are the samples. -/
theorem perm_filter_onSamples (b : Box α) (hn : 2 ≤ n) :
    ((b.sampleTuples (2 * n - 1)).filter (b.onSamples n)).Perm (b.sampleTuples n) := by
  have hfine : 2 ≤ 2 * n - 1 := by omega
  rw [List.perm_ext_iff_of_nodup ((b.nodup_sampleTuples hfine).filter _)
    (b.nodup_sampleTuples hn)]
  intro tuple
  rw [List.mem_filter]
  constructor
  · rintro ⟨htuple, hon⟩
    exact (onSamples_eq_true_iff
      (length_of_contains (contains_of_mem_sampleTuples hfine htuple))).mp hon
  · intro htuple
    exact ⟨b.sampleTuples_subset hn htuple, (onSamples_eq_true_iff
      (length_of_contains (contains_of_mem_sampleTuples hn htuple))).mpr htuple⟩

end Box

/-! ## Check lattices -/

namespace Regressor

variable {r : Regressor α}

/-- The tuples at which a fit evaluates its objective, in order: the samples,
then the check tuples that are no sample. -/
def visited (r : Regressor α) (b : Box α) : List (List ℕ) :=
  b.sampleTuples r.samples ++ r.checkTuples b

/-- A fit visits each tuple of the check lattice once. -/
theorem perm_visited (hn : 2 ≤ r.samples) (b : Box α) :
    (r.visited b).Perm (b.sampleTuples (2 * r.samples - 1)) := by
  have hcheck : r.checkTuples b =
      (b.sampleTuples (2 * r.samples - 1)).filter fun tuple =>
        !b.onSamples r.samples tuple := rfl
  rw [visited, hcheck]
  exact ((b.perm_filter_onSamples hn).symm.append_right _).trans
    (List.filter_append_perm _ _)

end Regressor

end IntervalProgramming
