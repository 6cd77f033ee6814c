import IntervalProgramming.Map.Rescale
import IntervalProgramming.Proofs.Map.Overlap
import IntervalProgramming.Refine.Cutting

/-!
# Changing a map

The changes that a map goes through after it was made: boxes are appended,
refitted, cut, rescaled and refined, and the grid is built when asked for.  No
change touches the domain or the degree, and only an appended box can span
other dimensions than the boxes before it.  So overlap queries stay exact along
every run of changes.
-/

namespace IntervalProgramming

variable {α : Type} [Scalar α]

namespace PiecewiseMap

/-- Every box spans the first `n` dimensions. -/
def Spans (m : PiecewiseMap α) (n : ℕ) : Prop :=
  ∀ (ix : ℕ) (b : Box α), m.boxes[ix]? = some b → b.dimensions = List.range n

theorem isFull_iff_spans {m : PiecewiseMap α} :
    m.IsFull ↔ m.Spans m.domain.size := by
  simp only [IsFull, Spans, Array.mem_iff_getElem?, forall_exists_index,
    Box.spansFirst_eq_true_iff]
  constructor
  · intro h ix b hb
    exact h b ix hb
  · intro h b ix hb
    exact h ix b hb

/-- What a change without new boxes of its own keeps: the domain, the degree,
and which dimensions the boxes span. -/
structure Keeps (m m' : PiecewiseMap α) : Prop where
  domain : m'.domain = m.domain
  degree : m'.degree = m.degree
  spans : ∀ n, m'.Spans n ↔ m.Spans n

namespace Keeps

theorem refl (m : PiecewiseMap α) : Keeps m m :=
  ⟨rfl, rfl, fun _ => Iff.rfl⟩

theorem trans {m m' m'' : PiecewiseMap α} (h : Keeps m m')
    (h' : Keeps m' m'') : Keeps m m'' :=
  ⟨h'.domain.trans h.domain, h'.degree.trans h.degree,
    fun n => (h'.spans n).trans (h.spans n)⟩

end Keeps

theorem keeps_modifyBox {m : PiecewiseMap α} {ix : ℕ} {f : Box α → Box α}
    (hf : ∀ b, m.boxes[ix]? = some b → (f b).dimensions = b.dimensions) :
    Keeps m (m.modifyBox ix f) := by
  refine ⟨rfl, rfl, fun n => ?_⟩
  simp only [Spans, modifyBox, withBoxes, Array.getElem?_modify]
  constructor
  · intro h j b hb
    by_cases hj : ix = j
    · subst j
      rw [← hf b hb]
      exact h ix (f b) (by simp [hb])
    · exact h j b (by rwa [if_neg hj])
  · intro h j b hb
    by_cases hj : ix = j
    · subst j
      rw [if_pos rfl, Option.map_eq_some_iff] at hb
      obtain ⟨c, hc, rfl⟩ := hb
      rw [hf c hc]
      exact h ix c hc
    · exact h j b (by rwa [if_neg hj] at hb)

theorem keeps_mapBoxes (m : PiecewiseMap α) {f : Box α → Box α}
    (hf : ∀ b, (f b).dimensions = b.dimensions) : Keeps m (m.mapBoxes f) := by
  refine ⟨rfl, rfl, fun n => ?_⟩
  simp only [Spans, mapBoxes, withBoxes, Array.getElem?_map,
    Option.map_eq_some_iff]
  constructor
  · intro h ix b hb
    rw [← hf b]
    exact h ix (f b) ⟨b, hb, rfl⟩
  · rintro h ix _ ⟨b, hb, rfl⟩
    rw [hf b]
    exact h ix b hb

theorem keeps_updateGrid (m : PiecewiseMap α) : Keeps m m.updateGrid :=
  ⟨rfl, rfl, fun _ => Iff.rfl⟩

theorem keeps_normalize (m : PiecewiseMap α) (lo hi : α) :
    Keeps m (m.normalize lo hi) := by
  unfold normalize
  split
  · split
    · exact keeps_mapBoxes m fun _ => rfl
    · exact keeps_mapBoxes m fun _ => rfl
  · exact Keeps.refl m

theorem spans_append {m : PiecewiseMap α} {b : Box α} {n : ℕ} :
    (m.append b).Spans n ↔ m.Spans n ∧ b.dimensions = List.range n := by
  simp only [Spans, append, withBoxes, Array.getElem?_push]
  constructor
  · intro h
    refine ⟨fun ix c hc => ?_, h m.boxes.size b (if_pos rfl)⟩
    have hix := (Array.getElem?_eq_some_iff.mp hc).1
    exact h ix c (by rwa [if_neg (Nat.ne_of_lt hix)])
  · rintro ⟨hm, hb⟩ ix c hc
    split at hc
    · obtain rfl := Option.some.inj hc
      exact hb
    · exact hm ix c hc

end PiecewiseMap

/-! ## Refinement -/

/-- Whatever its degree and its solver, a fit gives a box another model. -/
theorem Regressor.exists_fit_eq (r : Regressor α) (b : Box α) :
    ∃ slopes intercept, (r.fit b).box = b.setModel slopes intercept := by
  simp only [Regressor.fit, Regressor.model]
  split
  · exact ⟨_, _, rfl⟩
  · split
    · exact ⟨_, _, rfl⟩
    · exact ⟨_, _, rfl⟩

theorem Regressor.dimensions_fit (r : Regressor α) (b : Box α) :
    (r.fit b).box.dimensions = b.dimensions := by
  obtain ⟨slopes, intercept, hfit⟩ := r.exists_fit_eq b
  rw [hfit]
  rfl

theorem Box.dimensions_setExtent {b : Box α} {k : ℕ} {e f : Extent}
    (he : b.extents[k]? = some e) (hdim : f.dim = e.dim) :
    (b.setExtent k f).dimensions = b.dimensions := by
  simp only [dimensions, setExtent]
  apply List.ext_getElem?
  intro j
  rw [List.getElem?_map, List.getElem?_map, List.getElem?_set]
  by_cases hj : k = j
  · subst j
    obtain ⟨hk, hke⟩ := List.getElem?_eq_some_iff.mp he
    simp [hk, hke, hdim]
  · simp [hj]

theorem Box.dimensions_cut? {b lower upper : Box α} {k : ℕ}
    (h : b.cut? k = some (lower, upper)) :
    lower.dimensions = b.dimensions ∧ upper.dimensions = b.dimensions := by
  unfold cut? at h
  split at h
  · cases h
  · rename_i e he
    split at h
    · simp only [Option.some.injEq, Prod.mk.injEq] at h
      obtain ⟨rfl, rfl⟩ := h
      exact ⟨dimensions_setExtent he rfl, dimensions_setExtent he rfl⟩
    · cases h

namespace Refinement

open PiecewiseMap (Keeps)

theorem keeps_fitBox (pinnedFrom : ℕ) (s : Refinement α) (ix : ℕ) :
    Keeps s.map (fitBox pinnedFrom s ix).map := by
  unfold fitBox
  split
  · exact Keeps.refl s.map
  · rename_i b hb
    refine PiecewiseMap.keeps_modifyBox fun c hc => ?_
    obtain rfl := Option.some.inj (hb.symm.trans hc)
    exact s.regressor.dimensions_fit b

theorem keeps_evaluatePinned (m : PiecewiseMap α) (r : Regressor α)
    (pinnedFrom : ℕ) : Keeps m (evaluatePinned m r pinnedFrom).map := by
  have hfold : ∀ (positions : List ℕ) (s : Refinement α),
      Keeps s.map (positions.foldl (fitBox pinnedFrom) s).map := by
    intro positions
    induction positions with
    | nil => exact fun s => Keeps.refl s.map
    | cons ix positions ih =>
        exact fun s => (keeps_fitBox pinnedFrom s ix).trans (ih _)
  unfold evaluatePinned
  split
  · exact hfold (List.range m.size) { map := m, queue := .empty, regressor := r }
  · exact Keeps.refl m

theorem halves?_eq_some {s : Refinement α} {ix : ℕ} {lower upper : Box α}
    (h : s.halves? ix = some (lower, upper)) :
    ∃ b, s.map.boxes[ix]? = some b ∧ b.cut? b.longestExtent = some (lower, upper) :=
  Option.bind_eq_some_iff.mp h

/-- A cut fits the two halves of a box, first the lower one. -/
theorem exists_halves_of_cutBox? {s t : Refinement α} {ix : ℕ}
    (h : s.cutBox? ix = some t) :
    ∃ lower upper, s.halves? ix = some (lower, upper) ∧
      t = s.storeHalves ix (s.regressor.fit lower)
        ((s.regressor.fit lower).regressor.fit upper) := by
  obtain ⟨⟨lower, upper⟩, hhalves, rfl⟩ := Option.map_eq_some_iff.mp h
  exact ⟨lower, upper, hhalves, rfl⟩

theorem keeps_cutBox? {s t : Refinement α} {ix : ℕ}
    (h : s.cutBox? ix = some t) : Keeps s.map t.map := by
  obtain ⟨lower, upper, hhalves, rfl⟩ := exists_halves_of_cutBox? h
  obtain ⟨b, hb, hcut⟩ := halves?_eq_some hhalves
  obtain ⟨hlower, hupper⟩ := Box.dimensions_cut? hcut
  have hmodify : Keeps s.map
      (s.map.modifyBox ix fun _ => (s.regressor.fit lower).box) := by
    refine PiecewiseMap.keeps_modifyBox fun c hc => ?_
    obtain rfl := Option.some.inj (hb.symm.trans hc)
    rw [Regressor.dimensions_fit, hlower]
  refine ⟨rfl, rfl, fun n => ?_⟩
  rw [storeHalves, PiecewiseMap.spans_append, hmodify.spans,
    Regressor.dimensions_fit, hupper]
  exact and_iff_left_of_imp fun hs => hs ix b hb

theorem map_of_next? {s t : Refinement α} {threshold : α}
    {entry : QueueEntry α} (h : s.next? threshold = some (entry, t)) :
    t.map = s.map := by
  simp only [next?] at h
  split at h
  · cases h
  · split at h
    · simp only [Option.some.injEq, Prod.mk.injEq] at h
      obtain ⟨-, rfl⟩ := h
      rfl
    · cases h

theorem keeps_cutWorst (s : Refinement α) (budget : ℕ) (threshold : α) :
    Keeps s.map (s.cutWorst budget threshold).2.map := by
  fun_induction cutWorst s budget threshold with
  | case1 s => exact Keeps.refl s.map
  | case2 s budget hb hn => exact Keeps.refl s.map
  | case3 s budget hb entry t hn hc ih => rwa [map_of_next? hn] at ih
  | case4 s budget hb entry t hn cut hc cuts last heq ih =>
      rw [heq] at ih
      have hcut := keeps_cutBox? hc
      rw [map_of_next? hn] at hcut
      exact hcut.trans ih

theorem keeps_refine (s : Refinement α) (budget : ℕ) (threshold : α) :
    Keeps s.map (s.refine budget threshold).2.map := by
  unfold refine
  split
  · exact Keeps.refl s.map
  · exact (keeps_cutWorst s budget threshold).trans
      (PiecewiseMap.keeps_updateGrid _)

end Refinement

/-! ## Runs of changes -/

/-- One change to a map. -/
inductive MapChange (α : Type) [Scalar α] where
  | append (b : Box α)
  | setModel (ix : ℕ) (slopes : List α) (intercept : α)
  /-- Cut the box at a position along one of its extents.  Its place is taken
  by the lower half; the upper half is handed out, and comes back into the map
  only if it is appended. -/
  | cut (ix k : ℕ)
  | setGridCell (cell : List ℕ)
  | updateGrid
  | applyWeight (w : α)
  | normalize (lo hi : α)
  /-- Go on with a copy of the map. -/
  | copy
  | evaluate (r : Regressor α)
  | evaluatePinned (r : Regressor α) (pinnedFrom : ℕ)
  | refine (queue : RefineQueue α) (r : Regressor α) (budget : ℕ) (threshold : α)

namespace PiecewiseMap

/-- The map after a change. -/
def change (m : PiecewiseMap α) : MapChange α → PiecewiseMap α
  | .append b => m.append b
  | .setModel ix slopes intercept =>
    m.modifyBox ix fun b => b.setModel slopes intercept
  | .cut ix k =>
    m.modifyBox ix fun b =>
      match b.cut? k with
      | some (lower, _) => lower
      | none => b
  | .setGridCell cell => m.setGridCell cell
  | .updateGrid => m.updateGrid
  | .applyWeight w => m.applyWeight w
  | .normalize lo hi => m.normalize lo hi
  | .copy => m
  | .evaluate r => (Refinement.evaluate m r).map
  | .evaluatePinned r pinnedFrom => (Refinement.evaluatePinned m r pinnedFrom).map
  | .refine queue r budget threshold =>
    (Refinement.refine { map := m, queue := queue, regressor := r }
      budget threshold).2.map

/-- The map after a run of changes. -/
def changes (m : PiecewiseMap α) (run : List (MapChange α)) : PiecewiseMap α :=
  run.foldl change m

/-- A change keeps the domain, the degree, and the dimensions of the boxes
except for those of a box that it appends. -/
theorem change_spec (m : PiecewiseMap α) (c : MapChange α) :
    (m.change c).domain = m.domain ∧ (m.change c).degree = m.degree ∧
      ∀ n, (m.change c).Spans n ↔
        m.Spans n ∧ ∀ b, c = .append b → b.dimensions = List.range n := by
  have hkeeps : ∀ m' : PiecewiseMap α, Keeps m m' → (∀ b, c ≠ .append b) →
      m'.domain = m.domain ∧ m'.degree = m.degree ∧
        ∀ n, m'.Spans n ↔
          m.Spans n ∧ ∀ b, c = .append b → b.dimensions = List.range n := by
    intro m' h hc
    refine ⟨h.domain, h.degree, fun n => ?_⟩
    rw [h.spans]
    exact (and_iff_left fun b hb => absurd hb (hc b)).symm
  cases c with
  | append b =>
      refine ⟨rfl, rfl, fun n => ?_⟩
      simp only [change, spans_append, MapChange.append.injEq]
      exact and_congr_right fun _ => ⟨fun hb _ h => h ▸ hb, fun h => h b rfl⟩
  | setModel ix slopes intercept =>
      exact hkeeps _ (keeps_modifyBox fun _ _ => rfl) nofun
  | cut ix k =>
      refine hkeeps _ (keeps_modifyBox fun b _ => ?_) nofun
      split
      · rename_i lower upper hcut
        exact (Box.dimensions_cut? hcut).1
      · rfl
  | setGridCell cell => exact hkeeps _ ⟨rfl, rfl, fun _ => Iff.rfl⟩ nofun
  | updateGrid => exact hkeeps _ (keeps_updateGrid m) nofun
  | applyWeight w => exact hkeeps _ (keeps_mapBoxes m fun _ => rfl) nofun
  | normalize lo hi => exact hkeeps _ (keeps_normalize m lo hi) nofun
  | copy => exact hkeeps _ (Keeps.refl m) nofun
  | evaluate r =>
      exact hkeeps _ (Refinement.keeps_evaluatePinned m r m.size) nofun
  | evaluatePinned r pinnedFrom =>
      exact hkeeps _ (Refinement.keeps_evaluatePinned m r pinnedFrom) nofun
  | refine queue r budget threshold =>
      exact hkeeps _ (Refinement.keeps_refine
        { map := m, queue := queue, regressor := r } budget threshold) nofun

theorem changes_spec (m : PiecewiseMap α) (run : List (MapChange α)) :
    (m.changes run).domain = m.domain ∧ (m.changes run).degree = m.degree ∧
      ∀ n, (m.changes run).Spans n ↔ m.Spans n ∧
        ∀ b, .append b ∈ run → b.dimensions = List.range n := by
  induction run generalizing m with
  | nil =>
      refine ⟨rfl, rfl, fun n => ?_⟩
      simp [changes]
  | cons c run ih =>
      obtain ⟨hdomain, hdegree, hspans⟩ := m.change_spec c
      obtain ⟨hdomain', hdegree', hspans'⟩ := ih (m.change c)
      refine ⟨hdomain'.trans hdomain, hdegree'.trans hdegree, fun n => ?_⟩
      refine (hspans' n).trans ?_
      rw [hspans n, and_assoc]
      refine and_congr_right fun _ => ?_
      simp only [List.mem_cons]
      constructor
      · rintro ⟨hc, hrun⟩ b (hb | hb)
        · exact hc b hb.symm
        · exact hrun b hb
      · intro h
        exact ⟨fun b hb => h b (Or.inl hb.symm), fun b hb => h b (Or.inr hb)⟩

/-- After a run of changes all boxes span the domain exactly if the boxes at
the start and the appended ones do. -/
theorem isFull_changes_iff {d : Domain α} {degree : Degree}
    {boxes : List (Box α)} {run : List (MapChange α)} :
    ((ofBoxes d degree boxes).changes run).IsFull ↔
      (∀ b ∈ boxes, b.spansFirst d.size = true) ∧
        ∀ b, .append b ∈ run → b.spansFirst d.size = true := by
  obtain ⟨hdomain, -, hspans⟩ := (ofBoxes d degree boxes).changes_spec run
  rw [isFull_iff_spans, hdomain, hspans, ← isFull_iff_spans]
  simp only [IsFull, ofBoxes, List.mem_toArray, Box.spansFirst_eq_true_iff]

/-- Along every run of changes, overlap queries list exactly the boxes that
meet the query, once each and in order, whether or not there is a grid.  A grid
that is present indexes the present boxes, and neither dropping it nor building
it anew with any cell widths changes a value. -/
theorem overlapping_changes
    {d : Domain α} {degree : Degree} {boxes : List (Box α)}
    {run : List (MapChange α)} {m : PiecewiseMap α}
    (hm : m = (ofBoxes d degree boxes).changes run) (hfull : m.IsFull) :
    (∀ query : Box α, (m.overlapping query).Pairwise (· < ·) ∧
      ∀ ix, ix ∈ m.overlapping query ↔
        ∃ b, m.boxes[ix]? = some b ∧ b.intersects query = true) ∧
    (∀ g, m.grid = some g →
      ∃ cell, g = Grid.build d degree m.boxes.toList cell) ∧
    ∀ tuple, m.eval? tuple = m.dropGrid.eval? tuple ∧
      ∀ cell, m.eval? tuple = ((m.setGridCell cell).updateGrid).eval? tuple := by
  obtain ⟨hdomain, hdegree, -⟩ := (ofBoxes d degree boxes).changes_spec run
  rw [← hm] at hdomain hdegree
  constructor
  · intro query
    exact ⟨pairwise_overlapping hfull query, fun ix => mem_overlapping hfull⟩
  constructor
  · intro g hg
    obtain ⟨cell, hcell⟩ := m.grid_current g hg
    rw [hdomain, hdegree] at hcell
    exact ⟨cell, hcell⟩
  · intro tuple
    refine ⟨?_, fun cell => ?_⟩
    · rw [eval?_eq hfull, eval?_eq (m := m.dropGrid) hfull]
      rfl
    · rw [eval?_eq hfull, eval?_eq (m := (m.setGridCell cell).updateGrid) hfull]
      rfl

/-- After the box over both values of the switch was cut and the upper half
appended with a grid built over both, a query at the upper value finds the
appended box. -/
theorem overlapping_changes_switch :
    1 ∈ ((ofBoxes Domain.switch .linear [Box.onSwitch Interval.switch 5]).changes
      [.cut 0 0, .append (Box.onSwitch (Interval.point 1) 5), .updateGrid]).overlapping
        (Box.ofPoint [1]) := by
  refine ((overlapping_changes rfl ?_).1 (Box.ofPoint [1])).2 1 |>.mpr ?_
  · rw [isFull_changes_iff]
    constructor
    · decide
    · intro b hb
      simp only [List.mem_cons, MapChange.append.injEq, reduceCtorEq,
        List.not_mem_nil, or_false, false_or] at hb
      subst hb
      decide
  · exact ⟨Box.onSwitch (Interval.point 1) 5, rfl, by decide⟩

end PiecewiseMap

end IntervalProgramming
