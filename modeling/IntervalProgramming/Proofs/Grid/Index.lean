import Mathlib.Data.List.Sort
import Mathlib.Logic.Function.Iterate
import IntervalProgramming.Proofs.Grid.Cells
import IntervalProgramming.Proofs.Box.Value

/-!
# What a grid knows

A cell of a freshly built grid knows the position of every box that reaches
into it, and its peak covers the values of those boxes and of no others.
Overlap queries therefore find every box that meets the query, and the bound
over the cells under a query covers every value inside it.
-/

namespace IntervalProgramming

variable {α : Type} [Scalar α]

/-- Changing cells one after another changes each as often as it is named. -/
theorem getElem?_foldl_modify {β : Type} (f : β → β) (positions : List ℕ)
    (cells : Array β) (c : ℕ) :
    (positions.foldl (fun cells k => cells.modify k f) cells)[c]? =
      cells[c]?.map (f^[positions.count c]) := by
  induction positions generalizing cells with
  | nil => simp
  | cons k positions ih =>
      rw [List.foldl_cons, ih, Array.getElem?_modify, List.count_cons]
      by_cases hk : k = c
      · subst k
        cases cells[c]? with
        | none => simp
        | some cell => simp
      · simp [hk]

namespace GridCell

theorem mem_members_iterate_enter (cell : GridCell α) (ix : ℕ) (value : α)
    (n j : ℕ) :
    j ∈ ((fun c => c.enter ix value)^[n] cell).members ↔
      0 < n ∧ j = ix ∨ j ∈ cell.members := by
  induction n with
  | zero => simp
  | succ n ih =>
      rw [Function.iterate_succ_apply']
      rw [enter, List.mem_cons, ih]
      constructor
      · rintro (rfl | ⟨-, rfl⟩ | hj)
        · exact Or.inl ⟨Nat.succ_pos n, rfl⟩
        · exact Or.inl ⟨Nat.succ_pos n, rfl⟩
        · exact Or.inr hj
      · rintro (⟨-, rfl⟩ | hj)
        · exact Or.inl rfl
        · exact Or.inr (Or.inr hj)

theorem covers_peak_iterate_enter (cell : GridCell ℚ) (ix : ℕ) (value : ℚ)
    (n : ℕ) (z : ℚ) :
    Scalar.Covers ((fun c => c.enter ix value)^[n] cell).peak z ↔
      0 < n ∧ z ≤ value ∨ Scalar.Covers cell.peak z := by
  induction n with
  | zero => simp
  | succ n ih =>
      rw [Function.iterate_succ_apply', enter, Scalar.covers_raise, ih]
      simp only [Nat.succ_pos, true_and]
      tauto

end GridCell

namespace Grid

/-! ## Entering boxes -/

theorem axes_enter (degree : Degree) (g : Grid α) (ix : ℕ) (b : Box α) :
    (g.enter degree ix b).axes = g.axes :=
  rfl

theorem getElem?_cells_enter (degree : Degree) (g : Grid α) (ix : ℕ)
    (b : Box α) (c : ℕ) :
    (g.enter degree ix b).cells[c]? =
      g.cells[c]?.map
        ((fun cell => cell.enter ix (b.maxValAs degree))^[
          (cellsUnder g.axes b).count c]) :=
  getElem?_foldl_modify _ _ _ _

theorem axes_enterAll (degree : Degree) (start : ℕ) (boxes : List (Box α))
    (g : Grid α) : (enterAll degree start boxes g).axes = g.axes := by
  induction boxes generalizing start g with
  | nil => rfl
  | cons b boxes ih => rw [enterAll, ih, axes_enter]

theorem isSome_cells_enterAll (degree : Degree) (start : ℕ)
    (boxes : List (Box α)) (g : Grid α) (c : ℕ) :
    (enterAll degree start boxes g).cells[c]?.isSome = g.cells[c]?.isSome := by
  induction boxes generalizing start g with
  | nil => rfl
  | cons b boxes ih =>
      rw [enterAll, ih, getElem?_cells_enter, Option.isSome_map]

/-- A cell has as members its earlier ones and the positions of the boxes
entered that reach into it. -/
theorem mem_members_enterAll {degree : Degree} {start : ℕ}
    {boxes : List (Box α)} {g : Grid α} {c j : ℕ} {cell cell' : GridCell α}
    (hcell : g.cells[c]? = some cell)
    (hcell' : (enterAll degree start boxes g).cells[c]? = some cell') :
    j ∈ cell'.members ↔ j ∈ cell.members ∨
      ∃ k b, boxes[k]? = some b ∧ j = start + k ∧ c ∈ cellsUnder g.axes b := by
  induction boxes generalizing start g cell with
  | nil =>
      obtain rfl := Option.some.inj (hcell.symm.trans hcell')
      simp
  | cons b boxes ih =>
      have hstep := getElem?_cells_enter degree g start b c
      rw [hcell, Option.map_some] at hstep
      rw [ih hstep hcell', GridCell.mem_members_iterate_enter,
        List.count_pos_iff, axes_enter]
      constructor
      · rintro ((⟨hc, rfl⟩ | hj) | ⟨k, b', hb', rfl, hc⟩)
        · exact Or.inr ⟨0, b, rfl, rfl, hc⟩
        · exact Or.inl hj
        · exact Or.inr ⟨k + 1, b', hb', by omega, hc⟩
      · rintro (hj | ⟨_ | k, b', hb', rfl, hc⟩)
        · exact Or.inl (Or.inr hj)
        · obtain rfl := Option.some.inj hb'
          exact Or.inl (Or.inl ⟨hc, rfl⟩)
        · exact Or.inr ⟨k, b', hb', by omega, hc⟩

/-- The peak of a cell covers what it covered before and the values of the
boxes entered that reach into the cell. -/
theorem covers_peak_enterAll {degree : Degree} {start : ℕ}
    {boxes : List (Box ℚ)} {g : Grid ℚ} {c : ℕ} {z : ℚ} {cell cell' : GridCell ℚ}
    (hcell : g.cells[c]? = some cell)
    (hcell' : (enterAll degree start boxes g).cells[c]? = some cell') :
    Scalar.Covers cell'.peak z ↔ Scalar.Covers cell.peak z ∨
      ∃ b ∈ boxes, c ∈ cellsUnder g.axes b ∧ z ≤ b.maxValAs degree := by
  induction boxes generalizing start g cell with
  | nil =>
      obtain rfl := Option.some.inj (hcell.symm.trans hcell')
      simp
  | cons b boxes ih =>
      have hstep := getElem?_cells_enter degree g start b c
      rw [hcell, Option.map_some] at hstep
      rw [ih hstep hcell', GridCell.covers_peak_iterate_enter,
        List.count_pos_iff, axes_enter]
      simp only [List.mem_cons, exists_eq_or_imp]
      tauto

/-! ## A grid that has just been built -/

theorem axes_build (d : Domain α) (degree : Degree) (boxes : List (Box α))
    (cell : List ℕ) :
    (build d degree boxes cell).axes = coarsen (requestedAxes d cell) := by
  rw [build, axes_enterAll, vacant]

theorem length_axes_build (d : Domain α) (degree : Degree)
    (boxes : List (Box α)) (cell : List ℕ) :
    (build d degree boxes cell).axes.length = d.size := by
  rw [axes_build, length_coarsen, length_requestedAxes]

theorem isSome_cells_vacant (axes : List GridAxis) (c : ℕ) :
    (vacant axes : Grid α).cells[c]?.isSome = true ↔ c < total axes := by
  simp [vacant]

theorem getElem?_cells_vacant {axes : List GridAxis} {c : ℕ}
    (hc : c < total axes) : (vacant axes : Grid α).cells[c]? = some {} := by
  simp [vacant, hc]

theorem isSome_cells_build (d : Domain α) (degree : Degree)
    (boxes : List (Box α)) (cell : List ℕ) (c : ℕ) :
    (build d degree boxes cell).cells[c]?.isSome = true ↔
      c < total (build d degree boxes cell).axes := by
  rw [axes_build, build, isSome_cells_enterAll, isSome_cells_vacant]

theorem vacant_of_cells_build {d : Domain α} {degree : Degree}
    {boxes : List (Box α)} {cell : List ℕ} {c : ℕ} {content : GridCell α}
    (h : (build d degree boxes cell).cells[c]? = some content) :
    (vacant (coarsen (requestedAxes d cell)) : Grid α).cells[c]? = some {} := by
  apply getElem?_cells_vacant
  rw [← axes_build d degree boxes cell, ← isSome_cells_build, h]
  rfl

/-- The members of a cell are the positions of the boxes that reach into it. -/
theorem mem_members_build {d : Domain α} {degree : Degree}
    {boxes : List (Box α)} {cell : List ℕ} {c j : ℕ} {content : GridCell α}
    (h : (build d degree boxes cell).cells[c]? = some content) :
    j ∈ content.members ↔ ∃ b, boxes[j]? = some b ∧
      c ∈ cellsUnder (build d degree boxes cell).axes b := by
  rw [mem_members_enterAll (vacant_of_cells_build h) h, axes_build]
  constructor
  · rintro (hj | ⟨k, b, hb, rfl, hc⟩)
    · cases hj
    · exact ⟨b, by rwa [Nat.zero_add], hc⟩
  · rintro ⟨b, hb, hc⟩
    exact Or.inr ⟨j, b, hb, (Nat.zero_add j).symm, hc⟩

theorem covers_peak_build {d : Domain ℚ} {degree : Degree}
    {boxes : List (Box ℚ)} {cell : List ℕ} {c : ℕ} {z : ℚ}
    {content : GridCell ℚ}
    (h : (build d degree boxes cell).cells[c]? = some content) :
    Scalar.Covers content.peak z ↔ ∃ b ∈ boxes,
      c ∈ cellsUnder (build d degree boxes cell).axes b ∧
        z ≤ b.maxValAs degree := by
  rw [covers_peak_enterAll (vacant_of_cells_build h) h, axes_build]
  constructor
  · rintro (hz | hz)
    · exact absurd hz Scalar.not_covers_none
    · exact hz
  · exact Or.inr

/-- A box that meets a query reaches into an existing cell under the query:
the cell of a tuple that both hold. -/
theorem exists_common_cell {d : Domain α} (degree : Degree)
    (boxes : List (Box α)) {query b : Box α} (cell : List ℕ)
    (hfull : b.spansFirst d.size = true) (hmeet : b.intersects query = true) :
    ∃ c content, (build d degree boxes cell).cells[c]? = some content ∧
      c ∈ cellsUnder (build d degree boxes cell).axes query ∧
      c ∈ cellsUnder (build d degree boxes cell).axes b := by
  have haxes := length_axes_build d degree boxes cell
  generalize hg : build d degree boxes cell = g at haxes
  have hb : b.spansFirst g.axes.length = true := by rwa [haxes]
  have hdim := Box.dimensions_eq_of_intersects hmeet
  have hq : query.spansFirst g.axes.length = true := by
    rw [Box.spansFirst_eq_true_iff] at hb ⊢
    rw [← hdim, hb]
  obtain ⟨tuple, htb, htq⟩ := (Box.intersects_iff_exists hdim).mp hmeet
  have hlen : tuple.length = g.axes.length := by
    rw [Box.length_of_contains htb, Box.length_of_spansFirst hb]
  have hsome : g.cells[cellAt g.axes tuple]?.isSome = true := by
    rw [← hg, isSome_cells_build, hg]
    exact cellAt_lt_total hlen
  obtain ⟨content, hcontent⟩ := Option.isSome_iff_exists.mp hsome
  exact ⟨cellAt g.axes tuple, content, hcontent,
    cellAt_mem_cellsUnder hq htq, cellAt_mem_cellsUnder hb htb⟩

/-! ## Overlap queries -/

theorem mem_candidates {g : Grid α} {query : Box α} {ix : ℕ} :
    ix ∈ g.candidates query ↔
      ∃ c content, g.cells[c]? = some content ∧
        c ∈ cellsUnder g.axes query ∧ ix ∈ content.members := by
  simp only [candidates, mem_ascending, List.mem_flatMap, cellsAt,
    List.mem_filterMap]
  constructor
  · rintro ⟨content, ⟨c, hc, hcontent⟩, hix⟩
    exact ⟨c, content, hcontent, hc, hix⟩
  · rintro ⟨c, content, hcontent, hc, hix⟩
    exact ⟨content, ⟨c, hc, hcontent⟩, hix⟩

theorem meetsAt_eq_true_iff {boxes : Array (Box α)} {query : Box α} {ix : ℕ} :
    Box.meetsAt boxes query ix = true ↔
      ∃ b, boxes[ix]? = some b ∧ b.intersects query = true := by
  simp only [Box.meetsAt]
  cases boxes[ix]? <;> simp

theorem mem_candidates_build {d : Domain α} {degree : Degree}
    {boxes : List (Box α)} {query b : Box α} {ix : ℕ} (cell : List ℕ)
    (hfull : b.spansFirst d.size = true) (hix : boxes[ix]? = some b)
    (hmeet : b.intersects query = true) :
    ix ∈ (build d degree boxes cell).candidates query := by
  obtain ⟨c, content, hcontent, hquery, hbox⟩ :=
    exists_common_cell degree boxes cell hfull hmeet
  rw [mem_candidates]
  exact ⟨c, content, hcontent, hquery,
    (mem_members_build hcontent).mpr ⟨b, hix, hbox⟩⟩

/-- A query finds exactly the boxes that meet it, in order. -/
theorem query_build {d : Domain α} {degree : Degree} {boxes : Array (Box α)}
    (hfull : ∀ b ∈ boxes, b.spansFirst d.size = true) (cell : List ℕ)
    (q : Box α) :
    (build d degree boxes.toList cell).query boxes q =
      (List.range boxes.size).filter (Box.meetsAt boxes q) := by
  refine List.Pairwise.eq_of_mem_iff (r := (· < ·)) ?_ ?_ ?_
  · exact (pairwise_ascending _).filter _
  · exact List.pairwise_lt_range.filter _
  · intro ix
    rw [query, List.mem_filter, List.mem_filter, List.mem_range]
    constructor
    · rintro ⟨-, hmeets⟩
      obtain ⟨b, hb, -⟩ := meetsAt_eq_true_iff.mp hmeets
      exact ⟨(Array.getElem?_eq_some_iff.mp hb).1, hmeets⟩
    · rintro ⟨-, hmeets⟩
      obtain ⟨b, hb, hmeet⟩ := meetsAt_eq_true_iff.mp hmeets
      refine ⟨mem_candidates_build cell ?_ ?_ hmeet, hmeets⟩
      · exact hfull b (Array.mem_of_getElem? hb)
      · rw [Array.getElem?_toList, hb]

/-! ## The bound over the cells under a query -/

theorem covers_foldl_join {cells : List (GridCell ℚ)} {bound : Option ℚ} {z : ℚ} :
    Scalar.Covers (cells.foldl (fun bound c => Scalar.join bound c.peak) bound) z ↔
      Scalar.Covers bound z ∨ ∃ c ∈ cells, Scalar.Covers c.peak z := by
  induction cells generalizing bound with
  | nil => simp
  | cons c cells ih =>
      rw [List.foldl_cons, ih, Scalar.covers_join]
      simp only [List.mem_cons, exists_eq_or_imp]
      tauto

/-- The bound over a query covers the values of the boxes that meet it. -/
theorem covers_bound_build {d : Domain ℚ} {degree : Degree}
    {boxes : List (Box ℚ)} {query b : Box ℚ} {z : ℚ} (cell : List ℕ)
    (hfull : b.spansFirst d.size = true) (hb : b ∈ boxes)
    (hmeet : b.intersects query = true) (hz : z ≤ b.maxValAs degree) :
    Scalar.Covers ((build d degree boxes cell).bound query) z := by
  obtain ⟨c, content, hcontent, hquery, hbox⟩ :=
    exists_common_cell degree boxes cell hfull hmeet
  rw [bound, covers_foldl_join]
  refine Or.inr ⟨content, ?_, ?_⟩
  · rw [cellsAt, List.mem_filterMap]
    exact ⟨c, hquery, hcontent⟩
  · exact (covers_peak_build hcontent).mpr ⟨b, hb, hbox, hz⟩

end Grid

end IntervalProgramming
