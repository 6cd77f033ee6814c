import IntervalProgramming.Proofs.Layout.Tiling
import IntervalProgramming.Proofs.Map.Changes

/-!
# What refinement does to the layout of a map

Fitting leaves all extents alone, and a cut splits one box in two halves that
hold each of its tuples once.  So refinement never changes how many boxes hold
a tuple, every box it leaves is part of an earlier one, and a box that is
pinned or has a single tuple keeps its place and its extents.  Each cut makes
one box more.
-/

namespace IntervalProgramming

variable {α : Type} [Scalar α]

/-! ## Cutting a box -/

/-- Splitting one extent in two splits the tuples of a product of extents. -/
theorem Extent.toNat_hold_set {es : List Extent} {k : ℕ} {e lower upper : Extent}
    (he : es[k]? = some e)
    (hsplit : ∀ j, (lower.contains j).toNat + (upper.contains j).toNat =
      (e.contains j).toNat) (tuple : List ℕ) :
    (Extent.hold (es.set k lower) tuple).toNat +
        (Extent.hold (es.set k upper) tuple).toNat =
      (Extent.hold es tuple).toNat := by
  induction es generalizing k tuple with
  | nil => simp at he
  | cons f es ih =>
      cases tuple with
      | nil => cases k <;> simp
      | cons j tuple =>
          cases k with
          | zero =>
              obtain rfl := Option.some.inj he
              have hj := hsplit j
              simp only [List.set_cons_zero, Extent.hold_cons_cons]
              cases Extent.hold es tuple <;> simp [hj]
          | succ k =>
              have hrest := ih he tuple
              simp only [List.set_cons_succ, Extent.hold_cons_cons]
              cases f.contains j <;> simp [hrest]

namespace Box

theorem cut?_eq_some {b lower upper : Box α} {k : ℕ}
    (h : b.cut? k = some (lower, upper)) :
    ∃ e f g : Extent, b.extents[k]? = some e ∧ e.lo < e.hi ∧
      (∀ j, (f.contains j).toNat + (g.contains j).toNat = (e.contains j).toNat) ∧
      lower = b.setExtent k f ∧ upper = b.setExtent k g := by
  unfold cut? at h
  split at h
  · cases h
  · rename_i e he
    split at h
    · rename_i hlt
      simp only [Option.some.injEq, Prod.mk.injEq] at h
      obtain ⟨rfl, rfl⟩ := h
      refine ⟨e, _, _, he, hlt, ?_, rfl, rfl⟩
      intro j
      simp only [Interval.contains]
      by_cases hlo : e.lo ≤ j
      · by_cases hmid : j ≤ e.lo + (e.hi - e.lo) / 2
        · have hhi : j ≤ e.hi := by omega
          have hupper : ¬ e.lo + (e.hi - e.lo) / 2 + 1 ≤ j := by omega
          simp [hlo, hmid, hhi, hupper]
        · have hupper : e.lo + (e.hi - e.lo) / 2 + 1 ≤ j := by omega
          simp [hlo, hmid, hupper]
      · have hupper : ¬ e.lo + (e.hi - e.lo) / 2 + 1 ≤ j := by omega
        simp [hlo, hupper]
    · cases h

/-- The halves of a box hold each of its tuples once. -/
theorem toNat_contains_cut? {b lower upper : Box α} {k : ℕ}
    (h : b.cut? k = some (lower, upper)) (tuple : List ℕ) :
    (lower.contains tuple).toNat + (upper.contains tuple).toNat =
      (b.contains tuple).toNat := by
  obtain ⟨e, f, g, he, -, hsplit, rfl, rfl⟩ := cut?_eq_some h
  simp only [contains_eq_hold, setExtent]
  exact Extent.toNat_hold_set he hsplit tuple

theorem isWithin_cut? {b lower upper : Box α} {k : ℕ}
    (h : b.cut? k = some (lower, upper)) :
    lower.isWithin b = true ∧ upper.isWithin b = true := by
  obtain ⟨hlower, hupper⟩ := dimensions_cut? h
  constructor
  · rw [isWithin_iff_forall hlower]
    intro tuple htuple
    have hcount := toNat_contains_cut? h tuple
    by_contra hb
    rw [Bool.not_eq_true] at hb
    simp [htuple, hb] at hcount
  · rw [isWithin_iff_forall hupper]
    intro tuple htuple
    have hcount := toNat_contains_cut? h tuple
    by_contra hb
    rw [Bool.not_eq_true] at hb
    simp [htuple, hb] at hcount

theorem isPoint_eq_false_of_cut? {b lower upper : Box α} {k : ℕ}
    (h : b.cut? k = some (lower, upper)) : b.isPoint = false := by
  obtain ⟨e, f, g, he, hlt, -⟩ := cut?_eq_some h
  rw [Bool.eq_false_iff]
  intro hpoint
  simp only [isPoint, List.all_eq_true, Interval.isPoint, beq_iff_eq] at hpoint
  have heq := hpoint e (List.mem_of_getElem? he)
  omega

theorem foldl_max_mem (spans : List ℕ) :
    spans.foldl max 0 = 0 ∨ spans.foldl max 0 ∈ spans := by
  refine List.foldlRecOn (motive := fun top => top = 0 ∨ top ∈ spans)
    spans max (Or.inl rfl) ?_
  intro top htop span hspan
  rcases Nat.le_total top span with hle | hle
  · rw [Nat.max_eq_right hle]
    exact Or.inr hspan
  · rwa [Nat.max_eq_left hle]

/-- A box of several tuples can be cut along its longest extent. -/
theorem exists_cut?_longestExtent {b : Box α} (h : b.isPoint = false) :
    ∃ lower upper, b.cut? b.longestExtent = some (lower, upper) := by
  obtain ⟨e, he, hlong⟩ := List.all_eq_false.mp h
  have hspan : 0 < e.span := by
    have hle := e.le
    simp only [Interval.isPoint, beq_iff_eq] at hlong
    simp only [Interval.span]
    omega
  have htop : e.span ≤ b.spans.foldl max 0 :=
    (Grid.le_foldl_max b.spans 0).2 _ (List.mem_map_of_mem he)
  have hmem : b.spans.foldl max 0 ∈ b.spans := by
    rcases foldl_max_mem b.spans with hzero | hmem
    · omega
    · exact hmem
  obtain ⟨k, hk⟩ := Option.isSome_iff_exists.mp (List.isSome_idxOf?.mpr hmem)
  obtain ⟨hlt, htopk, -⟩ := List.idxOf?_eq_some_iff.mp hk
  have hlongest : b.longestExtent = k := by
    rw [longestExtent, hk, Option.getD_some]
  have hlen : k < b.extents.length := by
    simpa [spans] using hlt
  have hget : b.extents[k]? = some b.extents[k] := List.getElem?_eq_getElem hlen
  have hlohi : b.extents[k].lo < b.extents[k].hi := by
    have hspank : b.extents[k].span = b.spans.foldl max 0 := by
      simpa [spans] using htopk
    simp only [Interval.span] at hspank hspan htop
    omega
  rw [hlongest]
  unfold cut?
  rw [hget]
  simp only [hlohi, dif_pos]
  exact ⟨_, _, rfl⟩

/-- Changing one entry of a list changes a count by what the entry counts. -/
theorem countP_modify {β : Type} {xs : List β} {ix : ℕ} {x : β}
    (hx : xs[ix]? = some x) (f : β → β) (test : β → Bool) :
    (xs.modify ix f).countP test + (test x).toNat =
      xs.countP test + (test (f x)).toNat := by
  induction xs generalizing ix with
  | nil => simp at hx
  | cons y ys ih =>
      cases ix with
      | zero =>
          obtain rfl := Option.some.inj hx
          rw [List.modify_zero_cons, List.countP_cons, List.countP_cons]
          cases test y <;> cases test (f y) <;> simp
      | succ ix =>
          have hrest := ih hx
          rw [List.modify_succ_cons, List.countP_cons, List.countP_cons]
          omega

theorem holders_modify {boxes : List (Box α)} {ix : ℕ} {b : Box α}
    (hb : boxes[ix]? = some b) (f : Box α → Box α) (tuple : List ℕ) :
    holders (boxes.modify ix f) tuple + (b.contains tuple).toNat =
      holders boxes tuple + ((f b).contains tuple).toNat :=
  countP_modify hb f (·.contains tuple)

end Box

theorem Regressor.extents_fit (r : Regressor α) (b : Box α) :
    (r.fit b).box.extents = b.extents := by
  obtain ⟨slopes, intercept, hfit⟩ := r.exists_fit_eq b
  rw [hfit]
  rfl

theorem Regressor.contains_fit (r : Regressor α) (b : Box α) (tuple : List ℕ) :
    (r.fit b).box.contains tuple = b.contains tuple := by
  rw [Box.contains_eq_hold, Box.contains_eq_hold, r.extents_fit]

/-! ## Maps that come from cutting -/

namespace PiecewiseMap

/-- A map whose boxes come from the boxes of another one by cutting some of
them: each tuple is held as often as before, every box is part of an earlier
one, and the boxes at positions that keep `still` and those of a single tuple
have their places and extents. -/
structure CutFrom (still : ℕ → Prop) (m m' : PiecewiseMap α) : Prop where
  holders : ∀ tuple, Box.holders m'.boxes.toList tuple =
    Box.holders m.boxes.toList tuple
  part : ∀ c ∈ m'.boxes, ∃ b ∈ m.boxes, c.isWithin b = true
  still : ∀ ix b, m.boxes[ix]? = some b → still ix ∨ b.isPoint = true →
    ∃ c, m'.boxes[ix]? = some c ∧ c.extents = b.extents

variable {still : ℕ → Prop} {m m' m'' : PiecewiseMap α}

theorem CutFrom.trans (h : CutFrom still m m') (h' : CutFrom still m' m'') :
    CutFrom still m m'' := by
  constructor
  · intro tuple
    rw [h'.holders, h.holders]
  · intro c hc
    obtain ⟨b', hb', hcb'⟩ := h'.part c hc
    obtain ⟨b, hb, hb'b⟩ := h.part b' hb'
    exact ⟨b, hb, Box.isWithin_trans hcb' hb'b⟩
  · intro ix b hb hstill
    obtain ⟨b', hb', hextents⟩ := h.still ix b hb hstill
    have hstill' : still ix ∨ b'.isPoint = true := by
      rwa [Box.isPoint, hextents]
    obtain ⟨c, hc, hextents'⟩ := h'.still ix b' hb' hstill'
    exact ⟨c, hc, hextents'.trans hextents⟩

/-- Cutting keeps a partition. -/
theorem CutFrom.partitionedBy {still : ℕ → Prop} {m m' : PiecewiseMap α}
    {d : Domain α} (h : CutFrom still m m') (hm : d.PartitionedBy m.boxes.toList) :
    d.PartitionedBy m'.boxes.toList := by
  constructor
  · intro c hc
    obtain ⟨b, hb, hwithin⟩ := h.part c (Array.mem_toList_iff.mp hc)
    rw [Box.dimensions_eq_of_isWithin hwithin,
      hm.full b (Array.mem_toList_iff.mpr hb)]
  · intro c hc tuple htuple
    obtain ⟨b, hb, hwithin⟩ := h.part c (Array.mem_toList_iff.mp hc)
    exact hm.inside b (Array.mem_toList_iff.mpr hb) tuple
      (Box.contains_of_isWithin hwithin htuple)
  · intro tuple htuple
    rw [h.holders, hm.holders tuple htuple]

/-- The extents of the boxes, in order. -/
def layout (m : PiecewiseMap α) : List (List Extent) :=
  m.boxes.toList.map (·.extents)

theorem length_layout (m : PiecewiseMap α) : m.layout.length = m.size := by
  rw [layout, List.length_map, Array.length_toList, size]

theorem getElem?_layout (m : PiecewiseMap α) (ix : ℕ) :
    m.layout[ix]? = m.boxes[ix]?.map (·.extents) := by
  rw [layout, List.getElem?_map, Array.getElem?_toList]

/-- A map with the same layout is cut from the other map without a cut. -/
theorem CutFrom.of_layout (h : m'.layout = m.layout) : CutFrom still m m' := by
  have hget : ∀ ix : ℕ, m'.boxes[ix]?.map (·.extents) = m.boxes[ix]?.map (·.extents) := by
    intro ix
    rw [← getElem?_layout, ← getElem?_layout, h]
  constructor
  · intro tuple
    rw [Box.holders_eq_countP, ← layout, h, layout, ← Box.holders_eq_countP]
  · intro c hc
    obtain ⟨ix, hix⟩ := Array.mem_iff_getElem?.mp hc
    have hb := hget ix
    rw [hix, Option.map_some, eq_comm, Option.map_eq_some_iff] at hb
    obtain ⟨b, hb, hextents⟩ := hb
    exact ⟨b, Array.mem_of_getElem? hb, Box.isWithin_of_extents_eq hextents.symm⟩
  · intro ix b hb _
    have hc := hget ix
    rw [hb, Option.map_some, Option.map_eq_some_iff] at hc
    exact hc

end PiecewiseMap

/-! ## One step of a refinement -/

theorem RefineQueue.entries_of_pop? {q rest : RefineQueue α} {x : QueueEntry α}
    (h : q.pop? = some (x, rest)) : q.entries = x :: rest.entries := by
  obtain ⟨_ | ⟨y, ys⟩, hsorted⟩ := q
  · cases h
  · simp only [pop?, Option.some.injEq, Prod.mk.injEq] at h
    obtain ⟨rfl, rfl⟩ := h
    rfl

namespace Refinement

/-- Put the fit of a box in place of the box at a position, and queue it. -/
def refit (s : Refinement α) (ix : ℕ) (b : Box α) : Refinement α where
  map := s.map.modifyBox ix fun _ => (s.regressor.fit b).box
  queue := enqueue s.queue ix (s.regressor.fit b)
  regressor := (s.regressor.fit b).regressor

/-- Append the fit of a box, and queue it. -/
def appendFit (s : Refinement α) (b : Box α) : Refinement α where
  map := s.map.append (s.regressor.fit b).box
  queue := enqueue s.queue s.map.size (s.regressor.fit b)
  regressor := (s.regressor.fit b).regressor

theorem mem_entries_enqueue {queue : RefineQueue α} {ix : ℕ} {fit : FitResult α}
    {entry : QueueEntry α} :
    entry ∈ (enqueue queue ix fit).entries ↔
      (fit.box.isPoint = false ∧ entry = ⟨ix, fit.error⟩) ∨
        entry ∈ queue.entries := by
  unfold enqueue
  split
  · rename_i hpoint
    simp [hpoint]
  · rename_i hpoint
    rw [Bool.not_eq_true] at hpoint
    simp only [RefineQueue.push, RefineQueue.mem_insertEntry, hpoint, true_and]

theorem size_map_refit (s : Refinement α) (ix : ℕ) (b : Box α) :
    (s.refit ix b).map.size = s.map.size :=
  Array.size_modify

theorem size_map_appendFit (s : Refinement α) (b : Box α) :
    (s.appendFit b).map.size = s.map.size + 1 :=
  Array.size_push _

theorem isPoint_fit (r : Regressor α) (b : Box α) :
    (r.fit b).box.isPoint = b.isPoint := by
  rw [Box.isPoint, r.extents_fit, Box.isPoint]

theorem mem_queue_refit {s : Refinement α} {ix : ℕ} {b : Box α}
    {entry : QueueEntry α} :
    entry ∈ (s.refit ix b).queue.entries ↔
      (b.isPoint = false ∧ entry = ⟨ix, (s.regressor.fit b).error⟩) ∨
        entry ∈ s.queue.entries := by
  rw [← isPoint_fit s.regressor b]
  exact mem_entries_enqueue

theorem mem_queue_appendFit {s : Refinement α} {b : Box α}
    {entry : QueueEntry α} :
    entry ∈ (s.appendFit b).queue.entries ↔
      (b.isPoint = false ∧ entry = ⟨s.map.size, (s.regressor.fit b).error⟩) ∨
        entry ∈ s.queue.entries := by
  rw [← isPoint_fit s.regressor b]
  exact mem_entries_enqueue

/-- A cut refits the lower half in the place of the box and appends the upper
half. -/
theorem cutBox?_eq_some {s t : Refinement α} {ix : ℕ} (h : s.cutBox? ix = some t) :
    ∃ b lower upper, s.map.boxes[ix]? = some b ∧
      b.cut? b.longestExtent = some (lower, upper) ∧
      t = (s.refit ix lower).appendFit upper := by
  obtain ⟨lower, upper, hhalves, rfl⟩ := exists_halves_of_cutBox? h
  obtain ⟨b, hb, hcut⟩ := halves?_eq_some hhalves
  refine ⟨b, lower, upper, hb, hcut, ?_⟩
  simp only [appendFit, size_map_refit]
  rfl

theorem next?_eq_some {s t : Refinement α} {threshold : α} {entry : QueueEntry α}
    (h : s.next? threshold = some (entry, t)) :
    s.queue.entries = entry :: t.queue.entries ∧ t.map = s.map ∧
      t.regressor = s.regressor := by
  unfold next? at h
  split at h
  · cases h
  · rename_i first rest hpop
    split at h
    · simp only [Option.some.injEq, Prod.mk.injEq] at h
      obtain ⟨rfl, rfl⟩ := h
      exact ⟨RefineQueue.entries_of_pop? hpop, rfl, rfl⟩
    · cases h

/-- What every step of the cutting loop keeps holds at its end. -/
theorem cutWorst_induction {P : Refinement α → Prop} {threshold : α}
    (hstep : ∀ s t entry, P s → s.next? threshold = some (entry, t) →
      (t.cutBox? entry.ix = none → P t) ∧
        ∀ cut, t.cutBox? entry.ix = some cut → P cut)
    {s : Refinement α} (hs : P s) (budget : ℕ) :
    P (s.cutWorst budget threshold).2 := by
  fun_induction cutWorst s budget threshold with
  | case1 s => exact hs
  | case2 s budget hb hn => exact hs
  | case3 s budget hb entry t hn hc ih => exact ih ((hstep _ _ _ hs hn).1 hc)
  | case4 s budget hb entry t hn cut hc cuts last heq ih =>
      rw [heq] at ih
      exact ih ((hstep _ _ _ hs hn).2 cut hc)

/-- There are at most as many cuts as the budget, and each makes one box
more. -/
theorem size_map_cutWorst (s : Refinement α) (budget : ℕ) (threshold : α) :
    (s.cutWorst budget threshold).1 ≤ budget ∧
      (s.cutWorst budget threshold).2.map.size =
        s.map.size + (s.cutWorst budget threshold).1 := by
  fun_induction cutWorst s budget threshold with
  | case1 s => simp
  | case2 s budget hb hn => simp
  | case3 s budget hb entry t hn hc ih =>
      rw [(next?_eq_some hn).2.1] at ih
      exact ih
  | case4 s budget hb entry t hn cut hc cuts last heq ih =>
      rw [heq] at ih
      obtain ⟨b, lower, upper, -, -, rfl⟩ := cutBox?_eq_some hc
      rw [size_map_appendFit, size_map_refit, (next?_eq_some hn).2.1] at ih
      dsimp only at ih ⊢
      omega

theorem size_map_refine (s : Refinement α) (budget : ℕ) (threshold : α) :
    (s.refine budget threshold).1 ≤ budget ∧
      (s.refine budget threshold).2.map.size =
        s.map.size + (s.refine budget threshold).1 := by
  unfold refine
  split
  · simp
  · exact size_map_cutWorst s budget threshold

/-! ## The layout along a refinement -/

theorem layout_fitBox (pinnedFrom : ℕ) (s : Refinement α) (ix : ℕ) :
    (fitBox pinnedFrom s ix).map.layout = s.map.layout := by
  unfold fitBox
  split
  · rfl
  · rename_i b hb
    apply List.ext_getElem?
    intro k
    simp only [PiecewiseMap.getElem?_layout, storeFit, PiecewiseMap.modifyBox,
      PiecewiseMap.withBoxes, Array.getElem?_modify]
    by_cases hk : ix = k
    · subst k
      simp [hb, Regressor.extents_fit]
    · rw [if_neg hk]

theorem layout_evaluatePinned (m : PiecewiseMap α) (r : Regressor α)
    (pinnedFrom : ℕ) : (evaluatePinned m r pinnedFrom).map.layout = m.layout := by
  have hfold : ∀ (positions : List ℕ) (s : Refinement α),
      (positions.foldl (fitBox pinnedFrom) s).map.layout = s.map.layout := by
    intro positions
    induction positions with
    | nil => exact fun s => rfl
    | cons ix positions ih =>
        exact fun s => (ih _).trans (layout_fitBox pinnedFrom s ix)
  unfold evaluatePinned
  split
  · exact hfold _ _
  · rfl

theorem size_map_evaluatePinned (m : PiecewiseMap α) (r : Regressor α)
    (pinnedFrom : ℕ) : (evaluatePinned m r pinnedFrom).map.size = m.size := by
  rw [← PiecewiseMap.length_layout, layout_evaluatePinned, PiecewiseMap.length_layout]

/-- What a cut makes of the boxes: a part of the box at the position takes its
place, another part is appended, and the two hold its tuples once each. -/
theorem boxes_cutBox? {s t : Refinement α} {ix : ℕ} (h : s.cutBox? ix = some t) :
    ∃ b lower upper, s.map.boxes[ix]? = some b ∧ b.isPoint = false ∧
      (∀ tuple, (lower.contains tuple).toNat + (upper.contains tuple).toNat =
        (b.contains tuple).toNat) ∧
      lower.isWithin b = true ∧ upper.isWithin b = true ∧
      t.map.boxes = (s.map.boxes.modify ix fun _ => lower).push upper := by
  obtain ⟨b, lower, upper, hb, hcut, rfl⟩ := cutBox?_eq_some h
  obtain ⟨hlower, hupper⟩ := Box.isWithin_cut? hcut
  have hfit : ∀ (r : Regressor α) (c : Box α), (r.fit c).box.isWithin c = true :=
    fun r c => Box.isWithin_of_extents_eq (r.extents_fit c)
  refine ⟨b, (s.regressor.fit lower).box,
    ((s.regressor.fit lower).regressor.fit upper).box, hb,
    Box.isPoint_eq_false_of_cut? hcut, ?_, Box.isWithin_trans (hfit _ lower) hlower,
    Box.isWithin_trans (hfit _ upper) hupper, rfl⟩
  intro tuple
  rw [Regressor.contains_fit, Regressor.contains_fit, Box.toNat_contains_cut? hcut]

theorem size_map_cutBox? {s t : Refinement α} {ix : ℕ} (h : s.cutBox? ix = some t) :
    t.map.size = s.map.size + 1 := by
  obtain ⟨b, lower, upper, -, -, -, -, -, hboxes⟩ := boxes_cutBox? h
  rw [PiecewiseMap.size, hboxes, Array.size_push, Array.size_modify, PiecewiseMap.size]

/-- A cut leaves the boxes at all other positions alone. -/
theorem getElem?_boxes_cutBox? {s t : Refinement α} {ix k : ℕ}
    (h : s.cutBox? ix = some t) (hk : k < s.map.boxes.size) (hne : ix ≠ k) :
    t.map.boxes[k]? = s.map.boxes[k]? := by
  obtain ⟨b, lower, upper, -, -, -, -, -, hboxes⟩ := boxes_cutBox? h
  rw [hboxes, Array.getElem?_push, Array.size_modify, if_neg (Nat.ne_of_lt hk),
    Array.getElem?_modify, if_neg hne]

/-- A cut at a position that does not keep still leaves the others alone. -/
theorem cutFrom_cutBox? {still : ℕ → Prop} {s t : Refinement α} {ix : ℕ}
    (hix : ¬ still ix) (h : s.cutBox? ix = some t) :
    PiecewiseMap.CutFrom still s.map t.map := by
  obtain ⟨b, lower, upper, hb, hpoint, hsplit, hlower, hupper, hboxes⟩ :=
    boxes_cutBox? h
  have hmem : b ∈ s.map.boxes := Array.mem_of_getElem? hb
  constructor
  · intro tuple
    have hcount := hsplit tuple
    have hmodify := Box.holders_modify (Array.getElem?_toList.trans hb)
      (fun _ => lower) tuple
    rw [hboxes, Array.toList_push, Array.toList_modify, Box.holders_append,
      Box.holders_cons, Box.holders_nil]
    omega
  · intro c hc
    rw [hboxes, Array.mem_push] at hc
    rcases hc with hc | rfl
    · obtain ⟨k, hk⟩ := Array.mem_iff_getElem?.mp hc
      rw [Array.getElem?_modify] at hk
      split at hk
      · obtain ⟨-, -, rfl⟩ := Option.map_eq_some_iff.mp hk
        exact ⟨b, hmem, hlower⟩
      · exact ⟨c, Array.mem_of_getElem? hk, Box.isWithin_self c⟩
    · exact ⟨b, hmem, hupper⟩
  · intro k c hc hstill
    -- The position cut is neither still nor that of a single tuple.
    have hne : ix ≠ k := by
      rintro rfl
      obtain rfl := Option.some.inj (hb.symm.trans hc)
      rw [hpoint] at hstill
      simp [hix] at hstill
    have hk : k < s.map.boxes.size := (Array.getElem?_eq_some_iff.mp hc).1
    exact ⟨c, (getElem?_boxes_cutBox? h hk hne).trans hc, rfl⟩

/-- The invariant of the cutting loop: the map is cut from the one at the start,
and no position that keeps still is queued. -/
structure LeavesStill (still : ℕ → Prop) (m : PiecewiseMap α)
    (s : Refinement α) : Prop where
  cutFrom : PiecewiseMap.CutFrom still m s.map
  grown : m.size ≤ s.map.size
  queued : ∀ entry ∈ s.queue.entries, ¬ still entry.ix

theorem LeavesStill.next? {still : ℕ → Prop} {m : PiecewiseMap α}
    {s t : Refinement α} {threshold : α} {entry : QueueEntry α}
    (h : LeavesStill still m s) (hnext : s.next? threshold = some (entry, t)) :
    ¬ still entry.ix ∧ LeavesStill still m t := by
  obtain ⟨hentries, hmap, -⟩ := next?_eq_some hnext
  have hqueued := h.queued
  rw [hentries, List.forall_mem_cons] at hqueued
  refine ⟨hqueued.1, ?_, ?_, hqueued.2⟩
  · rw [hmap]
    exact h.cutFrom
  · rw [hmap]
    exact h.grown

theorem LeavesStill.cutBox? {still : ℕ → Prop} {m : PiecewiseMap α}
    {s t : Refinement α} {ix : ℕ} (h : LeavesStill still m s)
    (hsize : ∀ ix, m.size ≤ ix → ¬ still ix) (hix : ¬ still ix)
    (hcut : s.cutBox? ix = some t) : LeavesStill still m t := by
  have hstep := cutFrom_cutBox? hix hcut
  have hgrown := h.grown
  obtain ⟨b, lower, upper, -, -, rfl⟩ := cutBox?_eq_some hcut
  refine ⟨h.cutFrom.trans hstep, ?_, ?_⟩
  · rw [size_map_appendFit, size_map_refit]
    omega
  · intro entry hentry
    simp only [mem_queue_appendFit, mem_queue_refit, size_map_refit] at hentry
    rcases hentry with ⟨-, rfl⟩ | ⟨-, rfl⟩ | hentry
    · exact hsize _ hgrown
    · exact hix
    · exact h.queued entry hentry

/-- Along a refinement the positions that keep still, none of which is queued at
the start or comes after all boxes, are never queued and never cut. -/
theorem cutFrom_refine {still : ℕ → Prop} {s : Refinement α}
    (hqueue : ∀ entry ∈ s.queue.entries, ¬ still entry.ix)
    (hsize : ∀ ix, s.map.size ≤ ix → ¬ still ix) (budget : ℕ) (threshold : α) :
    PiecewiseMap.CutFrom still s.map (s.refine budget threshold).2.map := by
  have hstart : LeavesStill still s.map s :=
    ⟨.of_layout rfl, Nat.le_refl _, hqueue⟩
  have hloop : LeavesStill still s.map (s.cutWorst budget threshold).2 := by
    apply cutWorst_induction _ hstart
    intro now next entry hnow hnext
    obtain ⟨hix, hafter⟩ := hnow.next? hnext
    exact ⟨fun _ => hafter, fun _ hcut => hafter.cutBox? hsize hix hcut⟩
  unfold refine
  split
  · exact hstart.cutFrom
  · exact hloop.cutFrom.trans (.of_layout rfl)

end Refinement

end IntervalProgramming
