import Mathlib.Order.Bounds.Basic
import IntervalProgramming.Proofs.Build.Validity
import IntervalProgramming.Proofs.Layout.Numbering

/-!
# The finest even split

A unit for an amount of boxes is found in two steps: the least number of parts
per dimension whose power reaches the amount, and along each dimension the
smallest width that needs no more parts than that.  The first step starts from
an estimate and corrects it.  In count words the powers saturate, but they
reach an amount exactly when the exact powers do, and no correction leaves its
word.  So the estimate does not matter.
-/

namespace IntervalProgramming

variable {α : Type} [Scalar α]

/-! ## The least number of parts -/

namespace EvenSplit

/-- The numbers of parts per dimension that make at least so many cells. -/
def reaching (dims target : ℕ) : Set ℕ :=
  {parts | 1 ≤ parts ∧ target ≤ parts ^ dims}

theorem raiseTo_mem_reaching {dims : ℕ} (hdims : dims ≠ 0) {target parts : ℕ}
    (hparts : 1 ≤ parts) : raiseTo dims target parts ∈ reaching dims target := by
  fun_induction raiseTo dims target parts with
  | case1 parts _ _ ih => exact ih (Nat.le_succ_of_le hparts)
  | case2 parts _ hpower => exact ⟨hparts, Nat.not_lt.mp hpower⟩
  | case3 parts hlt =>
      exact ⟨hparts, (Nat.not_lt.mp hlt).trans (Nat.le_self_pow hdims parts)⟩

/-- Lowering stops at the least number of parts: a lower power never reaches
what a higher one misses. -/
theorem isLeast_lowerTo {dims target parts : ℕ} (h : parts ∈ reaching dims target) :
    IsLeast (reaching dims target) (lowerTo dims target parts) := by
  fun_induction lowerTo dims target parts with
  | case1 parts hpower ih => exact ih ⟨Nat.le_add_left 1 parts, hpower⟩
  | case2 parts hpower =>
      refine ⟨h, fun n hn => ?_⟩
      by_contra hlt
      have hle : n ≤ parts + 1 := by omega
      exact hpower (hn.2.trans (Nat.pow_le_pow_left hle dims))
  | case3 parts hsmall =>
      refine ⟨h, fun n hn => ?_⟩
      obtain ⟨hn, -⟩ := hn
      have hone : parts ≤ 1 := by
        by_contra hlt
        exact hsmall (parts - 2) (by omega)
      exact hone.trans hn

/-- Whatever the estimate, the corrections end at the least number of parts. -/
theorem isLeast_settle {dims : ℕ} (hdims : dims ≠ 0) (target estimate : ℕ) :
    IsLeast (reaching dims target) (settle dims target estimate) :=
  isLeast_lowerTo (raiseTo_mem_reaching hdims (Nat.le_max_right estimate 1))

theorem isLeast_partsPerDim {dims : ℕ} (hdims : dims ≠ 0) (target : ℕ) :
    IsLeast (reaching dims target) (partsPerDim dims target) :=
  isLeast_settle hdims target _

/-- An amount of none counts as one. -/
theorem reaching_max_one (dims amount : ℕ) :
    reaching dims (max amount 1) = reaching dims amount := by
  ext parts
  simp only [reaching, Set.mem_ofPred_eq, sup_le_iff]
  constructor
  · rintro ⟨hparts, hpower, -⟩
    exact ⟨hparts, hpower⟩
  · rintro ⟨hparts, hpower⟩
    exact ⟨hparts, hpower, Nat.one_le_pow dims parts hparts⟩

/-! ## Corrections in count words -/

/-- A power, as far as a count word holds it. -/
def countPower (base dims : ℕ) : ℕ :=
  min (base ^ dims) maxCount

/-- Raise `parts` until its power reaches `target`, one at a time in count
words; `none` if the next number of parts leaves its word. -/
def raiseInWords? (dims target parts : ℕ) : Option ℕ :=
  if countPower parts dims < target then
    if parts < maxCount then raiseInWords? dims target (parts + 1) else none
  else some parts
termination_by maxCount - parts

/-- Lower `parts` as long as the power of one less reaches `target`, in count
words and not below 1. -/
def lowerInWords (dims target : ℕ) : ℕ → ℕ
  | parts + 2 =>
      if target ≤ countPower (parts + 1) dims then lowerInWords dims target (parts + 1)
      else parts + 2
  | parts => parts

/-- The corrections of an estimate in count words. -/
def settleInWords? (dims target estimate : ℕ) : Option ℕ :=
  (raiseInWords? dims target (max estimate 1)).map (lowerInWords dims target)

/-- A power that saturates reaches an amount exactly when the exact one does. -/
theorem le_countPower_iff {target : ℕ} (htarget : target ≤ maxCount)
    (base dims : ℕ) : target ≤ countPower base dims ↔ target ≤ base ^ dims := by
  rw [countPower, le_min_iff]
  exact and_iff_left htarget

/-- Raising in count words ends before it leaves its word: the largest count is
its own first power, and reaches everything. -/
theorem raiseInWords?_eq {dims : ℕ} (hdims : dims ≠ 0) {target parts : ℕ}
    (htarget : target ≤ maxCount) (hparts : parts ≤ maxCount) :
    raiseInWords? dims target parts = some (raiseTo dims target parts) := by
  fun_induction raiseTo dims target parts with
  | case1 parts hlt hpower ih =>
      have hword : countPower parts dims < target := by
        rw [← Nat.not_le, le_countPower_iff htarget, Nat.not_le]
        exact hpower
      have hnext : parts < maxCount := lt_of_lt_of_le hlt htarget
      rw [raiseInWords?, if_pos hword, if_pos hnext, ih hnext]
  | case2 parts hlt hpower =>
      have hword : ¬ countPower parts dims < target := by
        rw [Nat.not_lt, le_countPower_iff htarget]
        exact Nat.not_lt.mp hpower
      rw [raiseInWords?, if_neg hword]
  | case3 parts hlt =>
      have hword : ¬ countPower parts dims < target := by
        rw [Nat.not_lt, le_countPower_iff htarget]
        exact (Nat.not_lt.mp hlt).trans (Nat.le_self_pow hdims parts)
      rw [raiseInWords?, if_neg hword]

theorem lowerInWords_eq {target : ℕ} (htarget : target ≤ maxCount)
    (dims parts : ℕ) : lowerInWords dims target parts = lowerTo dims target parts := by
  fun_induction lowerTo dims target parts with
  | case1 parts hpower ih =>
      rw [lowerInWords, if_pos ((le_countPower_iff htarget _ dims).mpr hpower), ih]
  | case2 parts hpower =>
      rw [lowerInWords, if_neg ((le_countPower_iff htarget _ dims).not.mpr hpower)]
  | case3 parts hsmall => rw [lowerInWords.eq_2 _ _ _ hsmall]

/-- In count words any estimate is corrected to the same number of parts. -/
theorem settleInWords?_eq {dims : ℕ} (hdims : dims ≠ 0) {target estimate : ℕ}
    (htarget : target ≤ maxCount) (hestimate : estimate ≤ maxCount) :
    settleInWords? dims target estimate = some (partsPerDim dims target) := by
  have hstart : max estimate 1 ≤ maxCount := max_le hestimate (by decide)
  rw [settleInWords?, raiseInWords?_eq hdims htarget hstart, Option.map_some,
    lowerInWords_eq htarget]
  exact congrArg some
    ((isLeast_settle hdims target estimate).unique (isLeast_partsPerDim hdims target))

end EvenSplit

/-- The widths of an even split with the parts per dimension corrected in count
words from an estimate. -/
def Domain.evenCellInWords? (d : Domain α) (pieces estimate : ℕ) : Option (List ℕ) := do
  let parts ← EvenSplit.settleInWords? (max d.size 1) (max pieces 1) estimate
  return d.vars.map fun v => max (ceilDiv v.count (min parts maxIndex)) 1

theorem Domain.evenCellInWords?_eq (d : Domain α) {pieces estimate : ℕ}
    (hpieces : pieces ≤ maxCount) (hestimate : estimate ≤ maxCount) :
    d.evenCellInWords? pieces estimate = some (d.evenCell pieces) := by
  have hdims : max d.size 1 ≠ 0 := by omega
  have htarget : max pieces 1 ≤ maxCount := max_le hpieces (by decide)
  rw [evenCellInWords?, EvenSplit.settleInWords?_eq hdims htarget hestimate]
  rfl

/-! ## The smallest width -/

theorem ceilDiv_le_iff {count width : ℕ} (hwidth : 0 < width) (parts : ℕ) :
    ceilDiv count width ≤ parts ↔ count ≤ parts * width := by
  rw [ceilDiv, Nat.div_le_iff_le_mul_add_pred hwidth, Nat.mul_comm]
  omega

/-- The widths with which so many parts cover a dimension of `count` indices. -/
def coveringWidths (count parts : ℕ) : Set ℕ :=
  {width | 1 ≤ width ∧ ceilDiv count width ≤ parts}

/-- The smallest width of at most `parts` parts.  The number of parts may be
held in an index word, since one index for each part is enough there. -/
theorem isLeast_coveringWidths {count parts : ℕ} (hcount : count ≤ maxIndex)
    (hparts : 1 ≤ parts) :
    IsLeast (coveringWidths count parts) (max (ceilDiv count (min parts maxIndex)) 1) := by
  have hheld : 0 < min parts maxIndex := lt_min hparts (by decide)
  have hmem : ∀ width, width ∈ coveringWidths count parts ↔
      1 ≤ width ∧ ceilDiv count (min parts maxIndex) ≤ width := by
    intro width
    apply and_congr_right
    intro hwidth
    have hlarge : count ≤ maxIndex * width :=
      hcount.trans (Nat.le_mul_of_pos_right maxIndex hwidth)
    rw [ceilDiv_le_iff hwidth, ceilDiv_le_iff hheld, Nat.mul_comm width,
      ← Nat.mul_min_mul_right, le_min_iff, and_iff_left hlarge]
  constructor
  · rw [hmem]
    exact ⟨le_max_right _ _, le_max_left _ _⟩
  · intro width hwidth
    rw [hmem] at hwidth
    exact max_le hwidth.2 hwidth.1

/-! ## The unit of an amount -/

/-- The different extents that the boxes of a map have along a dimension. -/
def PiecewiseMap.extentsAlong (m : PiecewiseMap α) (k : ℕ) : List Extent :=
  (m.boxes.toList.filterMap (·.extents[k]?)).dedup

theorem Box.exists_axis_of_mem_tiles? {region unit tile : Box α}
    {tiles : List (Box α)} (h : region.tiles? unit = some tiles) (htile : tile ∈ tiles)
    {k : ℕ} {e : Extent} (he : tile.extents[k]? = some e) :
    ∃ axis, (tileAxes region unit)[k]? = some axis ∧ e ∈ axis := by
  obtain ⟨-, rfl⟩ := tiles?_eq_some h
  obtain ⟨part, hpart, rfl⟩ := List.mem_map.mp htile
  obtain ⟨hlen, hchosen⟩ := List.forall₂_iff_get.mp (Tuple.mem_firstFastest.mp hpart)
  obtain ⟨hk, rfl⟩ := List.getElem?_eq_some_iff.mp he
  have hk' : k < (tileAxes region unit).length := hlen ▸ hk
  exact ⟨_, List.getElem?_eq_getElem hk', hchosen k hk' hk⟩

/-- The boxes of a regular tiling have no more different extents along a
dimension than it has tiles along it. -/
theorem PiecewiseMap.length_extentsAlong_le {d : Domain α} {unit : Box α}
    {degree : Degree} {m : PiecewiseMap α} (h : uniform? d unit degree = some m)
    {n : ℕ} (hn : ∀ c ∈ d.tileCounts unit, c ≤ n) (k : ℕ) :
    (m.extentsAlong k).length ≤ n := by
  obtain ⟨whole, tiles, hwhole, -, htiles, rfl⟩ := uniform?_eq_some_iff.mp h
  have hlengths := Box.map_length_tileAxes whole unit
  rw [Domain.axisCounts_universe hwhole] at hlengths
  set m := (ofBoxes d degree tiles).setGridCell (unit.extents.map (·.width))
  have hentry : ∀ e ∈ m.extentsAlong k,
      ∃ axis, (Box.tileAxes whole unit)[k]? = some axis ∧ e ∈ axis := by
    intro e he
    obtain ⟨b, hb, hek⟩ := List.mem_filterMap.mp (List.mem_dedup.mp he)
    exact Box.exists_axis_of_mem_tiles? htiles hb hek
  cases haxis : (Box.tileAxes whole unit)[k]? with
  | none =>
      have hnil : m.extentsAlong k = [] := by
        rw [List.eq_nil_iff_forall_not_mem]
        intro e he
        obtain ⟨axis, hsome, -⟩ := hentry e he
        rw [haxis] at hsome
        cases hsome
      rw [hnil]
      exact Nat.zero_le n
  | some axis =>
      have hsubset : m.extentsAlong k ⊆ axis := by
        intro e he
        obtain ⟨axis', hsome, hmem⟩ := hentry e he
        rw [haxis] at hsome
        rwa [Option.some.inj hsome]
      have hcount : axis.length ∈ d.tileCounts unit := by
        rw [← hlengths]
        exact List.mem_map_of_mem (List.mem_of_getElem? haxis)
      exact (List.subperm_of_subset (List.nodup_dedup _) hsubset).length_le.trans (hn _ hcount)

/-- The widths of an even split are the smallest ones for the least number of
parts. -/
theorem Domain.evenCell_eq {d : Domain α} (hd : d.isEmpty = false) {amount n : ℕ}
    (hn : IsLeast (EvenSplit.reaching d.size amount) n) :
    d.evenCell amount = d.vars.map fun v => max (ceilDiv v.count (min n maxIndex)) 1 := by
  have hsize : max d.size 1 = d.size := by
    apply max_eq_left
    rw [Domain.isEmpty, List.isEmpty_eq_false_iff] at hd
    exact List.length_pos_iff.mpr hd
  have hdims : max d.size 1 ≠ 0 := by omega
  have hparts := EvenSplit.isLeast_partsPerDim hdims (max amount 1)
  rw [hsize, EvenSplit.reaching_max_one] at hparts
  rw [evenCell, hsize, hparts.unique hn]

/-- Along each dimension the unit of an amount starts at index 0 and has the
smallest width that needs no more than the least number of parts. -/
theorem Box.exists_unitForAmount? {d : Domain α} (hd : d.isEmpty = false)
    {amount n : ℕ} (hn : IsLeast (EvenSplit.reaching d.size amount) n) :
    ∃ unit, unitForAmount? d amount = some unit ∧
      unit.dimensions = List.range d.size ∧
      List.Forall₂
        (fun v e => e.lo = 0 ∧ IsLeast (coveringWidths v.count n) (e.span + 1))
        d.vars unit.extents := by
  refine ⟨ofIntervals ((d.evenCell amount).map Interval.ofWidth), ?_, ?_, ?_⟩
  · rw [unitForAmount?, hd, if_neg Bool.false_ne_true, ofWidths?_eq_some]
  · rw [dimensions_ofIntervals, List.length_map, Domain.evenCell_eq hd hn, List.length_map,
      Domain.size]
  · rw [Domain.evenCell_eq hd hn, List.forall₂_iff_get]
    refine ⟨by simp [ofIntervals, flat], fun k hk hk' => ?_⟩
    have hleast := isLeast_coveringWidths d.vars[k].count_le_maxIndex hn.1.1
    have hsucc := Nat.sub_add_cancel hleast.1.1
    simp only [ofIntervals, flat, Interval.ofWidth, Interval.span, Nat.sub_zero,
      List.get_eq_getElem, List.getElem_mapIdx, List.getElem_map, hsucc]
    exact ⟨trivial, hleast⟩

/-- The unit of an amount splits a domain most finely with equally many parts
along every dimension.  The least number of parts per dimension that reaches
the amount exists; the unit starts at index 0 and has, along each dimension,
the smallest width that needs no more parts; and its tiling has no more parts
along any dimension.  In count words every estimate of the number of parts is
corrected to the same widths. -/
theorem Box.unitForAmount?_isFinest {d : Domain α} (hd : d.isEmpty = false)
    (amount : ℕ) :
    ∃ n unit, IsLeast (EvenSplit.reaching d.size amount) n ∧
      unitForAmount? d amount = some unit ∧
      unit.dimensions = List.range d.size ∧
      List.Forall₂
        (fun v e => e.lo = 0 ∧ IsLeast (coveringWidths v.count n) (e.span + 1))
        d.vars unit.extents ∧
      (∀ degree, ∃ m, PiecewiseMap.uniform? d unit degree = some m ∧
        ∀ k, (m.extentsAlong k).length ≤ n) ∧
      (amount ≤ maxCount → ∀ estimate ≤ maxCount,
        d.evenCellInWords? amount estimate = some (d.evenCell amount)) := by
  have hdims : d.size ≠ 0 := by
    rw [Domain.isEmpty, List.isEmpty_eq_false_iff] at hd
    exact fun hzero => hd (List.length_eq_zero_iff.mp hzero)
  have hn := EvenSplit.isLeast_partsPerDim hdims amount
  obtain ⟨unit, hunit, hdim, hwidths⟩ := exists_unitForAmount? hd hn
  refine ⟨_, unit, hn, hunit, hdim, hwidths, fun degree => ?_, ?_⟩
  · obtain ⟨m, hm⟩ := PiecewiseMap.exists_uniform? hd hdim degree
    refine ⟨m, hm, PiecewiseMap.length_extentsAlong_le hm fun c hc => ?_⟩
    rw [Domain.tileCounts, Domain.counts, List.zipWith_map_left,
      ← List.map_uncurry_zip_eq_zipWith] at hc
    obtain ⟨⟨v, e⟩, hmem, rfl⟩ := List.mem_map.mp hc
    obtain ⟨-, hwidth⟩ := (List.forall₂_iff_zip.mp hwidths).2 hmem
    exact hwidth.1.2
  · intro hamount estimate hestimate
    exact d.evenCellInWords?_eq hamount hestimate

/-- Ten boxes of the plate ask for four parts per dimension, since nine is the
square of three: ten values are split in threes and three in single ones, also
when the estimate is far too large. -/
theorem Box.unitForAmount?_isFinest_plate :
    ∃ unit, unitForAmount? Domain.plate 10 = some unit ∧ unit.spans = [2, 0] ∧
      (∃ m, PiecewiseMap.uniform? Domain.plate unit .constant = some m ∧
        ∀ k, (m.extentsAlong k).length ≤ 4) ∧
      Domain.plate.evenCellInWords? 10 maxCount = some [3, 1] := by
  have hfour : IsLeast (EvenSplit.reaching Domain.plate.size 10) 4 := by
    refine ⟨⟨by decide, by decide⟩, fun n hn => ?_⟩
    by_contra hlt
    have hle : n ≤ 3 := by omega
    exact absurd (hn.2.trans (Nat.pow_le_pow_left hle 2)) (by decide)
  obtain ⟨n, unit, hn, hunit, -, hwidths, htiling, hwords⟩ :=
    unitForAmount?_isFinest (d := Domain.plate) rfl 10
  obtain rfl := hn.unique hfour
  refine ⟨unit, hunit, ?_, htiling .constant, ?_⟩
  · have hspans : Domain.plate.vars.map
        (fun v => max (ceilDiv v.count (min 4 maxIndex)) 1 - 1) = unit.spans := by
      rw [← List.forall₂_eq_eq_eq, spans, List.forall₂_map_left_iff,
        List.forall₂_map_right_iff]
      refine hwidths.imp fun v e hwidth => ?_
      have hleast : IsLeast (coveringWidths v.count 4) _ :=
        isLeast_coveringWidths v.count_le_maxIndex (by decide)
      rw [← hwidth.2.unique hleast, Nat.add_sub_cancel]
    rw [← hspans]
    decide
  · rw [hwords (by decide) maxCount le_rfl, Domain.evenCell_eq rfl hfour]
    decide

end IntervalProgramming
