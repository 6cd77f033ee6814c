import Mathlib.Data.List.Nodup
import IntervalProgramming.Proofs.Refine.Cuts
import IntervalProgramming.Proofs.Scalar.Rational

/-!
# Queue and map in step

A fit reads nothing of a box but its extents and counts on the regressor
without changing what later fits give.  So the queue of a refinement can be
described by the map alone: every box carries its own fit, and the positions
queued are those of the boxes that can be cut and are not pinned, once each and
with the error of the box that is there now.  This holds after the evaluation
and after every refinement from there on; when a refinement ends before its
budget is spent, no queued error is above the threshold.
-/

namespace IntervalProgramming

variable {α : Type} [Scalar α]

/-! ## What a fit depends on -/

namespace Regressor

/-- Regressors that differ in their counts of fits and evaluations only. -/
structure FitsLike (r r' : Regressor α) : Prop where
  solver : r.solver = r'.solver
  objective : r.objective = r'.objective
  degree : r.degree = r'.degree
  samples : r.samples = r'.samples

theorem FitsLike.refl (r : Regressor α) : FitsLike r r :=
  ⟨rfl, rfl, rfl, rfl⟩

theorem fitsLike_fit (r : Regressor α) (b : Box α) :
    FitsLike (r.fit b).regressor r :=
  ⟨rfl, rfl, rfl, rfl⟩

theorem FitsLike.trans {r r' r'' : Regressor α} (h : FitsLike r r')
    (h' : FitsLike r' r'') : FitsLike r r'' :=
  ⟨h.solver.trans h'.solver, h.objective.trans h'.objective,
    h.degree.trans h'.degree, h.samples.trans h'.samples⟩

/-- Box and error of a fit depend on the extents only. -/
theorem FitsLike.fit_congr {r r' : Regressor α} (h : FitsLike r r') {b c : Box α}
    (hextents : b.extents = c.extents) :
    (r.fit b).box = (r'.fit c).box ∧ (r.fit b).error = (r'.fit c).error := by
  obtain ⟨solver, objective, degree, samples, fits, evals⟩ := r
  obtain ⟨solver', objective', degree', samples', fits', evals'⟩ := r'
  obtain ⟨rfl, rfl, rfl, rfl⟩ := h
  obtain ⟨extents, slopes, intercept⟩ := b
  obtain ⟨extents', slopes', intercept'⟩ := c
  obtain rfl := hextents
  exact ⟨rfl, rfl⟩

/-- Fitting a fitted box again changes nothing. -/
theorem FitsLike.fit_fit {r r' : Regressor α} (h : FitsLike r r') (b : Box α) :
    (r'.fit (r.fit b).box).box = (r.fit b).box ∧
      (r'.fit (r.fit b).box).error = (r.fit b).error := by
  obtain ⟨hbox, herror⟩ := h.fit_congr (r.extents_fit b).symm
  exact ⟨hbox.symm, herror.symm⟩

end Regressor

/-! ## The order of the queue -/

namespace RefineQueue

theorem perm_insertEntry (x : QueueEntry α) (xs : List (QueueEntry α)) :
    (insertEntry x xs).Perm (x :: xs) := by
  induction xs with
  | nil => exact List.Perm.refl _
  | cons y rest ih =>
      simp only [insertEntry]
      split
      · exact List.Perm.refl _
      · exact (ih.cons y).trans (List.Perm.swap x y rest)

theorem entries_of_pop?_eq_none {q : RefineQueue α} (h : q.pop? = none) :
    q.entries = [] := by
  obtain ⟨_ | ⟨x, rest⟩, hsorted⟩ := q
  · rfl
  · cases h

/-- The first entry of a queue may be handed out before every other. -/
theorem before_of_pop? {q rest : RefineQueue α} {x : QueueEntry α}
    (h : q.pop? = some (x, rest)) : ∀ entry ∈ q.entries, x.before entry = true := by
  have hsorted := q.sorted
  rw [entries_of_pop? h, List.pairwise_cons] at hsorted
  rw [entries_of_pop? h, List.forall_mem_cons]
  exact ⟨(x.before_total x).elim id id, hsorted.1⟩

/-- The first entry of a queue has the largest error. -/
theorem error_le_of_pop? {q rest : RefineQueue ℚ} {x : QueueEntry ℚ}
    (h : q.pop? = some (x, rest)) : ∀ entry ∈ q.entries, entry.error ≤ x.error := by
  intro entry hentry
  have hbefore := before_of_pop? h entry hentry
  simp only [QueueEntry.before, Bool.and_eq_true] at hbefore
  exact of_decide_eq_true hbefore.1

end RefineQueue

namespace Refinement

/-! ## The invariant -/

/-- Map and queue of a refinement are in step: the boxes at positions that are
`fitted` carry their own fit, and queued are, once each, the positions that are
`due` and whose box can be cut, with the error of that box. -/
structure InStep (r : Regressor α) (fitted due : ℕ → Prop) (s : Refinement α) :
    Prop where
  fits : s.regressor.FitsLike r
  model : ∀ ix b, s.map.boxes[ix]? = some b → fitted ix → (r.fit b).box = b
  sound : ∀ entry ∈ s.queue.entries, due entry.ix ∧
    ∃ b, s.map.boxes[entry.ix]? = some b ∧ b.isPoint = false ∧
      entry.error = (r.fit b).error
  complete : ∀ ix b, s.map.boxes[ix]? = some b → b.isPoint = false → due ix →
    ix ∈ s.queue.entries.map (·.ix)
  nodup : (s.queue.entries.map (·.ix)).Nodup

namespace InStep

variable {r : Regressor α} {fitted due : ℕ → Prop} {s t : Refinement α}

/-- Only the positions of boxes matter. -/
theorem congr {fitted' due' : ℕ → Prop} (h : InStep r fitted due s)
    (hfitted : ∀ ix < s.map.size, fitted' ix → fitted ix)
    (hdue : ∀ ix < s.map.size, due' ix ↔ due ix) : InStep r fitted' due' s := by
  have hlt : ∀ {ix : ℕ} {b : Box α}, s.map.boxes[ix]? = some b → ix < s.map.size :=
    fun hb => (Array.getElem?_eq_some_iff.mp hb).1
  refine ⟨h.fits, ?_, ?_, ?_, h.nodup⟩
  · intro ix b hb hix
    exact h.model ix b hb (hfitted ix (hlt hb) hix)
  · intro entry hentry
    obtain ⟨hix, b, hb, hrest⟩ := h.sound entry hentry
    exact ⟨(hdue _ (hlt hb)).mpr hix, b, hb, hrest⟩
  · intro ix b hb hpoint hix
    exact h.complete ix b hb hpoint ((hdue ix (hlt hb)).mp hix)

/-- What is queued has a box. -/
theorem ix_lt (h : InStep r fitted due s) {entry : QueueEntry α}
    (hentry : entry ∈ s.queue.entries) : entry.ix < s.map.size := by
  obtain ⟨-, b, hb, -⟩ := h.sound entry hentry
  exact (Array.getElem?_eq_some_iff.mp hb).1

/-- Fitting a box that is not due for the queue. -/
theorem fitAt {ix : ℕ} (h : InStep r fitted due s) (hix : ¬ due ix) (c : Box α) :
    InStep r (fun k => k = ix ∨ fitted k) due
      { s with
        map := s.map.modifyBox ix fun _ => (s.regressor.fit c).box
        regressor := (s.regressor.fit c).regressor } := by
  have hboxes : ∀ k, (s.map.modifyBox ix fun _ => (s.regressor.fit c).box).boxes[k]? =
      if ix = k then s.map.boxes[k]?.map fun _ => (s.regressor.fit c).box
      else s.map.boxes[k]? :=
    fun k => Array.getElem?_modify
  refine ⟨(s.regressor.fitsLike_fit c).trans h.fits, ?_, ?_, ?_, h.nodup⟩
  · intro k b hb hk
    rw [hboxes] at hb
    split at hb
    · obtain ⟨-, -, rfl⟩ := Option.map_eq_some_iff.mp hb
      exact (h.fits.fit_fit c).1
    · rename_i hne
      exact h.model k b hb (hk.resolve_left (Ne.symm hne))
  · intro entry hentry
    obtain ⟨hdue, b, hb, hrest⟩ := h.sound entry hentry
    refine ⟨hdue, b, ?_, hrest⟩
    have hne : ix ≠ entry.ix := by
      rintro rfl
      exact hix hdue
    rw [hboxes, if_neg hne, hb]
  · intro k b hb hpoint hk
    have hne : ix ≠ k := by
      rintro rfl
      exact hix hk
    rw [hboxes, if_neg hne] at hb
    exact h.complete k b hb hpoint hk

/-- Fitting a box and appending it without queueing it. -/
theorem extend (h : InStep r fitted due s) (c : Box α) :
    InStep r fitted (fun k => k ≠ s.map.size ∧ due k)
      { s with
        map := s.map.append (s.regressor.fit c).box
        regressor := (s.regressor.fit c).regressor } := by
  have hboxes : ∀ k, (s.map.append (s.regressor.fit c).box).boxes[k]? =
      if k = s.map.size then some (s.regressor.fit c).box else s.map.boxes[k]? :=
    fun k => Array.getElem?_push
  refine ⟨(s.regressor.fitsLike_fit c).trans h.fits, ?_, ?_, ?_, h.nodup⟩
  · intro k b hb hk
    rw [hboxes] at hb
    split at hb
    · obtain rfl := Option.some.inj hb
      exact (h.fits.fit_fit c).1
    · exact h.model k b hb hk
  · intro entry hentry
    have hne : entry.ix ≠ s.map.size := Nat.ne_of_lt (h.ix_lt hentry)
    obtain ⟨hdue, b, hb, hrest⟩ := h.sound entry hentry
    refine ⟨⟨hne, hdue⟩, b, ?_, hrest⟩
    rw [hboxes, if_neg hne, hb]
  · rintro k b hb hpoint ⟨hne, hk⟩
    rw [hboxes, if_neg hne] at hb
    exact h.complete k b hb hpoint hk

/-- Queueing the one box that is due and missing. -/
theorem enqueue {ix : ℕ} {fit : FitResult α}
    (h : InStep r fitted (fun k => k ≠ ix ∧ due k) s) (hdue : due ix)
    (hbox : s.map.boxes[ix]? = some fit.box)
    (herror : fit.error = (r.fit fit.box).error) :
    InStep r fitted due
      { s with queue := Refinement.enqueue s.queue ix fit } := by
  refine ⟨h.fits, h.model, ?_, ?_, ?_⟩
  · intro entry hentry
    rcases mem_entries_enqueue.mp hentry with ⟨hpoint, rfl⟩ | hentry
    · exact ⟨hdue, fit.box, hbox, hpoint, herror⟩
    · obtain ⟨⟨-, hk⟩, hrest⟩ := h.sound entry hentry
      exact ⟨hk, hrest⟩
  · intro k b hb hpoint hk
    rw [List.mem_map]
    by_cases hne : k = ix
    · subst k
      obtain rfl := Option.some.inj (hbox.symm.trans hb)
      exact ⟨_, mem_entries_enqueue.mpr (Or.inl ⟨hpoint, rfl⟩), rfl⟩
    · obtain ⟨entry, hentry, rfl⟩ :=
        List.mem_map.mp (h.complete k b hb hpoint ⟨hne, hk⟩)
      exact ⟨entry, mem_entries_enqueue.mpr (Or.inr hentry), rfl⟩
  · have hix : ix ∉ s.queue.entries.map (·.ix) := by
      intro hmem
      obtain ⟨entry, hentry, heq⟩ := List.mem_map.mp hmem
      exact (h.sound entry hentry).1.1 heq
    simp only [Refinement.enqueue]
    split
    · exact h.nodup
    · have hperm := (RefineQueue.perm_insertEntry ⟨ix, fit.error⟩
        s.queue.entries).map (·.ix)
      rw [RefineQueue.push, hperm.nodup_iff]
      exact List.nodup_cons.mpr ⟨hix, h.nodup⟩

theorem refit {ix : ℕ} (h : InStep r fitted (fun k => k ≠ ix ∧ due k) s)
    (hdue : due ix) (hix : ix < s.map.size) (c : Box α) :
    InStep r (fun k => k = ix ∨ fitted k) due (s.refit ix c) := by
  have hfit := h.fitAt (fun hk => hk.1 rfl) c
  refine hfit.enqueue hdue ?_ (h.fits.fit_fit c).2.symm
  have hb : s.map.boxes[ix]? = some s.map.boxes[ix] := Array.getElem?_eq_getElem hix
  simp only [PiecewiseMap.modifyBox, PiecewiseMap.withBoxes, Array.getElem?_modify,
    if_true, hb, Option.map_some]

theorem appendFit (h : InStep r fitted due s) (hdue : due s.map.size) (c : Box α) :
    InStep r fitted due (s.appendFit c) := by
  refine (h.extend c).enqueue hdue ?_ (h.fits.fit_fit c).2.symm
  exact Array.getElem?_push_size

/-- One step of the evaluation. -/
theorem fitBox {n pinnedFrom : ℕ}
    (h : InStep r (· < n) (fun k => k < n ∧ k < pinnedFrom) s) :
    InStep r (· < n + 1) (fun k => k < n + 1 ∧ k < pinnedFrom)
      (Refinement.fitBox pinnedFrom s n) := by
  unfold Refinement.fitBox
  split
  · rename_i hnone
    have hsize : s.map.size ≤ n := Array.getElem?_eq_none_iff.mp hnone
    apply h.congr
    · intro ix hix _
      omega
    · intro ix hix
      omega
  · rename_i b hb
    have hn : n < s.map.size := (Array.getElem?_eq_some_iff.mp hb).1
    by_cases hpinned : n < pinnedFrom
    · have hmissing : InStep r (· < n)
          (fun k => k ≠ n ∧ k < n + 1 ∧ k < pinnedFrom) s := by
        apply h.congr
        · exact fun ix _ hix => hix
        · intro ix hix
          omega
      have hrefit := hmissing.refit ⟨Nat.lt_succ_self n, hpinned⟩ hn b
      simp only [storeFit, if_pos hpinned]
      apply hrefit.congr
      · intro ix _ hix
        omega
      · exact fun ix _ => Iff.rfl
    · have hfit := h.fitAt (fun hk => hpinned hk.2) b
      simp only [storeFit, if_neg hpinned]
      apply hfit.congr
      · intro ix _ hix
        omega
      · intro ix hix
        omega

theorem of_next? {threshold : α} {entry : QueueEntry α} (h : InStep r fitted due s)
    (hnext : s.next? threshold = some (entry, t)) :
    InStep r fitted (fun k => k ≠ entry.ix ∧ due k) t ∧ due entry.ix ∧
      t.cutBox? entry.ix ≠ none := by
  obtain ⟨hentries, hmap, hregressor⟩ := next?_eq_some hnext
  have hnodup := h.nodup
  rw [hentries, List.map_cons, List.nodup_cons] at hnodup
  have hhead : entry ∈ s.queue.entries := by
    rw [hentries]
    exact List.mem_cons_self
  obtain ⟨hdue, b, hb, hpoint, -⟩ := h.sound entry hhead
  -- The head is the only entry of its position, so with it the position leaves
  -- the queue.
  refine ⟨⟨?_, ?_, ?_, ?_, hnodup.2⟩, hdue, ?_⟩
  · rw [hregressor]
    exact h.fits
  · rw [hmap]
    exact h.model
  · intro e he
    rw [hmap]
    obtain ⟨hk, hrest⟩ := h.sound e (hentries ▸ List.mem_cons_of_mem entry he)
    refine ⟨⟨?_, hk⟩, hrest⟩
    intro heq
    exact hnodup.1 (heq ▸ List.mem_map_of_mem he)
  · rintro k c hc hcpoint ⟨hne, hk⟩
    rw [hmap] at hc
    have hmem := h.complete k c hc hcpoint hk
    rw [hentries, List.map_cons, List.mem_cons] at hmem
    exact hmem.resolve_left hne
  · obtain ⟨lower, upper, hcut⟩ := Box.exists_cut?_longestExtent hpoint
    rw [← hmap] at hb
    simp [Refinement.cutBox?, halves?, hb, hcut]

/-- One cut: the lower half is queued again in the place of the box that was
taken from the queue, the upper half at the next position. -/
theorem cutBox? {ix : ℕ}
    (h : InStep r (fun _ => True) (fun k => k ≠ ix ∧ due k) s) (hix : due ix)
    (hsize : due s.map.size) (hcut : s.cutBox? ix = some t) :
    InStep r (fun _ => True) due t := by
  obtain ⟨b, lower, upper, hb, -, rfl⟩ := cutBox?_eq_some hcut
  have hlower := h.refit hix (Array.getElem?_eq_some_iff.mp hb).1 lower
  have hupper := hlower.appendFit (by rwa [size_map_refit]) upper
  exact hupper.congr (fun _ _ _ => Or.inr trivial) fun _ _ => Iff.rfl

end InStep

/-! ## Runs -/

theorem inStep_evaluatePinned {m : PiecewiseMap α} {r : Regressor α}
    (hdomain : (r.objective.domain == m.domain) = true) (pinnedFrom : ℕ) :
    InStep r (· < m.size) (fun k => k < m.size ∧ k < pinnedFrom)
      (evaluatePinned m r pinnedFrom) := by
  have hrange : ∀ n, InStep r (· < n) (fun k => k < n ∧ k < pinnedFrom)
      ((List.range n).foldl (fitBox pinnedFrom)
        { map := m, queue := .empty, regressor := r }) := by
    intro n
    induction n with
    | zero =>
        refine ⟨.refl r, ?_, ?_, ?_, List.nodup_nil⟩
        · exact fun ix b hb hix => absurd hix (Nat.not_lt_zero ix)
        · exact fun entry hentry => absurd hentry List.not_mem_nil
        · exact fun ix b hb _ hix => absurd hix.1 (Nat.not_lt_zero ix)
    | succ n ih =>
        rw [List.range_succ, List.foldl_append, List.foldl_cons, List.foldl_nil]
        exact ih.fitBox
  unfold evaluatePinned
  rw [if_pos hdomain]
  exact hrange m.size

/-- The evaluation queues no pinned position, over any domain. -/
theorem ix_lt_of_mem_evaluatePinned {m : PiecewiseMap α} {r : Regressor α}
    {pinnedFrom : ℕ} {entry : QueueEntry α}
    (hentry : entry ∈ (evaluatePinned m r pinnedFrom).queue.entries) :
    entry.ix < pinnedFrom := by
  by_cases hdomain : (r.objective.domain == m.domain) = true
  · exact ((inStep_evaluatePinned hdomain pinnedFrom).sound entry hentry).1.2
  · unfold evaluatePinned at hentry
    rw [if_neg hdomain] at hentry
    cases hentry

theorem inStep_cutWorst {r : Regressor α} {due : ℕ → Prop} {s : Refinement α}
    (h : InStep r (fun _ => True) due s) (hsize : ∀ ix, s.map.size ≤ ix → due ix)
    (budget : ℕ) (threshold : α) :
    InStep r (fun _ => True) due (s.cutWorst budget threshold).2 := by
  refine (cutWorst_induction (P := fun last : Refinement α =>
    InStep r (fun _ => True) due last ∧ s.map.size ≤ last.map.size)
    ?_ ⟨h, Nat.le_refl _⟩ budget).1
  rintro now next entry ⟨hnow, hgrown⟩ hnext
  obtain ⟨hnow', hix, hcuttable⟩ := hnow.of_next? hnext
  refine ⟨fun hcut => absurd hcut hcuttable, ?_⟩
  intro after hafter
  rw [← (next?_eq_some hnext).2.1] at hgrown
  refine ⟨hnow'.cutBox? hix (hsize _ hgrown) hafter, ?_⟩
  obtain ⟨b, lower, upper, -, -, rfl⟩ := cutBox?_eq_some hafter
  rw [size_map_appendFit, size_map_refit]
  omega

theorem inStep_refine {r : Regressor α} {due : ℕ → Prop} {s : Refinement α}
    (h : InStep r (fun _ => True) due s) (hsize : ∀ ix, s.map.size ≤ ix → due ix)
    (budget : ℕ) (threshold : α) :
    InStep r (fun _ => True) due (s.refine budget threshold).2 := by
  unfold refine
  split
  · exact h
  · obtain ⟨hfits, hmodel, hsound, hcomplete, hnodup⟩ :=
      inStep_cutWorst h hsize budget threshold
    exact ⟨hfits, hmodel, hsound, hcomplete, hnodup⟩

/-- A run that makes fewer cuts than it may has no entry left above the
threshold. -/
theorem next?_cutWorst (s : Refinement α) (budget : ℕ) (threshold : α)
    (h : (s.cutWorst budget threshold).1 < budget) :
    (s.cutWorst budget threshold).2.next? threshold = none := by
  fun_induction cutWorst s budget threshold with
  | case1 s => exact absurd h (Nat.lt_irrefl 0)
  | case2 s budget hb hn => exact hn
  | case3 s budget hb entry t hn hc ih => exact ih h
  | case4 s budget hb entry t hn cut hc cuts last heq ih =>
      rw [heq] at ih
      dsimp only at h
      exact ih (by omega)

theorem error_le_of_next? {s : Refinement ℚ} {threshold : ℚ}
    (h : s.next? threshold = none) :
    ∀ entry ∈ s.queue.entries, entry.error ≤ threshold := by
  intro entry hentry
  unfold next? at h
  split at h
  · rename_i hpop
    rw [RefineQueue.entries_of_pop?_eq_none hpop] at hentry
    cases hentry
  · rename_i first rest hpop
    split at h
    · cases h
    · rename_i hle
      exact (RefineQueue.error_le_of_pop? hpop entry hentry).trans (not_lt.mp hle)

/-- A box that is due and can be cut is queued, so its error is within a
threshold that no queued error is above. -/
theorem InStep.error_le_of_next? {r : Regressor ℚ} {due : ℕ → Prop}
    {s : Refinement ℚ} {threshold : ℚ} (h : InStep r (fun _ => True) due s)
    (hended : s.next? threshold = none) {ix : ℕ} {b : Box ℚ}
    (hb : s.map.boxes[ix]? = some b) (hpoint : b.isPoint = false) (hdue : due ix) :
    (r.fit b).error ≤ threshold := by
  obtain ⟨entry, hentry, rfl⟩ := List.mem_map.mp (h.complete ix b hb hpoint hdue)
  obtain ⟨-, c, hc, -, herror⟩ := h.sound entry hentry
  obtain rfl := Option.some.inj (hc.symm.trans hb)
  rw [← herror]
  exact Refinement.error_le_of_next? hended entry hentry

/-- A refinement that ends before its budget is spent leaves no box that is due
and can be cut above the threshold. -/
theorem InStep.error_le_of_refine {r : Regressor ℚ} {due : ℕ → Prop}
    {s : Refinement ℚ} {budget : ℕ} {threshold : ℚ}
    (h : InStep r (fun _ => True) due s)
    (hdomain : (r.objective.domain == s.map.domain) = true)
    (hsize : ∀ ix, s.map.size ≤ ix → due ix) (hbudget : 0 < budget)
    (hfull : s.map.isEmpty = false)
    (hcuts : (s.refine budget threshold).1 < budget) {ix : ℕ} {b : Box ℚ}
    (hb : (s.refine budget threshold).2.map.boxes[ix]? = some b)
    (hpoint : b.isPoint = false) (hdue : due ix) :
    (r.fit b).error ≤ threshold := by
  rw [← h.fits.objective] at hdomain
  have hguard : ¬ (s.map.isEmpty || budget == 0 ||
      !(s.regressor.objective.domain == s.map.domain)) = true := by
    simp [hfull, hdomain, Nat.ne_of_gt hbudget]
  unfold refine at hcuts hb
  rw [if_neg hguard] at hcuts hb
  have hlast := inStep_cutWorst h hsize budget threshold
  exact hlast.error_le_of_next? (next?_cutWorst s budget threshold hcuts) hb hpoint
    hdue

/-- The state after a sequence of refinements, each with its budget and its
threshold. -/
def refineAll (s : Refinement α) (calls : List (ℕ × α)) : Refinement α :=
  calls.foldl (fun s call => (s.refine call.1 call.2).2) s

/-- What holds from the evaluation of a map on: map and queue are in step with
every position due that is not pinned, and the map is cut from the one at the
start with the pinned boxes left still. -/
structure RunOf (m : PiecewiseMap α) (r : Regressor α) (pinnedFrom : ℕ)
    (s : Refinement α) : Prop where
  inStep : InStep r (fun _ => True) (fun ix => ix < pinnedFrom ∨ m.size ≤ ix) s
  domain : s.map.domain = m.domain
  grown : m.size ≤ s.map.size
  cutFrom : PiecewiseMap.CutFrom (fun ix => pinnedFrom ≤ ix ∧ ix < m.size) m s.map

theorem runOf_evaluatePinned {m : PiecewiseMap α} {r : Regressor α}
    (hdomain : (r.objective.domain == m.domain) = true) (pinnedFrom : ℕ) :
    RunOf m r pinnedFrom (evaluatePinned m r pinnedFrom) := by
  have hsize := size_map_evaluatePinned m r pinnedFrom
  refine ⟨?_, (keeps_evaluatePinned m r pinnedFrom).domain, hsize.ge,
    .of_layout (layout_evaluatePinned m r pinnedFrom)⟩
  apply (inStep_evaluatePinned hdomain pinnedFrom).congr
  · intro ix hix _
    omega
  · intro ix hix
    omega

theorem RunOf.refine {m : PiecewiseMap α} {r : Regressor α} {pinnedFrom : ℕ}
    {s : Refinement α} (h : RunOf m r pinnedFrom s) (budget : ℕ) (threshold : α) :
    RunOf m r pinnedFrom (s.refine budget threshold).2 := by
  have hdue : ∀ ix, s.map.size ≤ ix → ix < pinnedFrom ∨ m.size ≤ ix :=
    fun ix hix => Or.inr (h.grown.trans hix)
  have hkeeps := keeps_refine s budget threshold
  refine ⟨inStep_refine h.inStep hdue budget threshold,
    hkeeps.domain.trans h.domain, ?_, ?_⟩
  · rw [(size_map_refine s budget threshold).2]
    exact h.grown.trans (Nat.le_add_right _ _)
  · apply h.cutFrom.trans
    apply cutFrom_refine
    · intro entry hentry
      have hix := (h.inStep.sound entry hentry).1
      omega
    · intro ix hix
      have := h.grown
      omega

theorem RunOf.refineAll {m : PiecewiseMap α} {r : Regressor α} {pinnedFrom : ℕ}
    {s : Refinement α} (h : RunOf m r pinnedFrom s) (calls : List (ℕ × α)) :
    RunOf m r pinnedFrom (s.refineAll calls) := by
  induction calls generalizing s with
  | nil => exact h
  | cons call calls ih => exact ih (h.refine call.1 call.2)

/-- Start refining from the queue of an evaluation, by any budgets and
thresholds.  Queued are then, once each, the positions of the boxes that can be
cut and are not pinned, each with the error that a fit gives for the box there;
every box has the model that a fit gives for it, and pinned boxes have kept
their extents.  So when a further refinement ends before its budget is spent,
every box that is not pinned and can be cut fits within the threshold. -/
theorem queue_refineAll (m : PiecewiseMap ℚ) (r : Regressor ℚ) (pinnedFrom : ℕ)
    (calls : List (ℕ × ℚ)) {s : Refinement ℚ}
    (hdomain : (r.objective.domain == m.domain) = true)
    (hs : s = (evaluatePinned m r pinnedFrom).refineAll calls) :
    (s.queue.entries.map (·.ix)).Nodup ∧
    (∀ ix, ix ∈ s.queue.entries.map (·.ix) ↔
      ∃ b, s.map.boxes[ix]? = some b ∧ b.isPoint = false ∧
        (ix < pinnedFrom ∨ m.size ≤ ix)) ∧
    (∀ entry ∈ s.queue.entries, ∃ b, s.map.boxes[entry.ix]? = some b ∧
      ∀ c : Box ℚ, c.extents = b.extents → entry.error = (r.fit c).error) ∧
    (∀ b ∈ s.map.boxes, ∀ c : Box ℚ, c.extents = b.extents → (r.fit c).box = b) ∧
    (∀ ix b, m.boxes[ix]? = some b → pinnedFrom ≤ ix →
      ∃ c, s.map.boxes[ix]? = some c ∧ c.extents = b.extents) ∧
    ∀ budget threshold, 0 < budget → s.map.isEmpty = false →
      (s.refine budget threshold).1 < budget →
      ∀ ix b, (s.refine budget threshold).2.map.boxes[ix]? = some b →
        b.isPoint = false → (ix < pinnedFrom ∨ m.size ≤ ix) →
        (r.fit b).error ≤ threshold := by
  have hrun := (runOf_evaluatePinned hdomain pinnedFrom).refineAll calls
  rw [← hs] at hrun
  obtain ⟨hstep, hmap, hgrown, hcut⟩ := hrun
  have hlike := Regressor.FitsLike.refl r
  refine ⟨hstep.nodup, ?_, ?_, ?_, ?_, ?_⟩
  · intro ix
    constructor
    · intro hix
      obtain ⟨entry, hentry, rfl⟩ := List.mem_map.mp hix
      obtain ⟨hdue, b, hb, hpoint, -⟩ := hstep.sound entry hentry
      exact ⟨b, hb, hpoint, hdue⟩
    · rintro ⟨b, hb, hpoint, hdue⟩
      exact hstep.complete ix b hb hpoint hdue
  · intro entry hentry
    obtain ⟨-, b, hb, -, herror⟩ := hstep.sound entry hentry
    refine ⟨b, hb, ?_⟩
    intro c hc
    rw [herror, (hlike.fit_congr hc).2]
  · intro b hb c hc
    obtain ⟨ix, hix⟩ := Array.mem_iff_getElem?.mp hb
    rw [(hlike.fit_congr hc).1, hstep.model ix b hix trivial]
  · intro ix b hb hpinned
    exact hcut.still ix b hb
      (Or.inl ⟨hpinned, (Array.getElem?_eq_some_iff.mp hb).1⟩)
  · intro budget threshold hbudget hfull hcuts ix b hb hpoint hdue
    rw [← hmap] at hdomain
    have habove : ∀ k, s.map.size ≤ k → k < pinnedFrom ∨ m.size ≤ k :=
      fun k hk => Or.inr (hgrown.trans hk)
    exact hstep.error_le_of_refine hdomain habove hbudget hfull hcuts hb hpoint hdue

end Refinement

/-- The objective that is the value of the switch. -/
def Objective.onSwitch : Objective ℚ where
  domain := Domain.switch
  value := fun point => point.headD 0

/-- The objective that is the product of the coordinates of the plate. -/
def Objective.onPlate : Objective ℚ where
  domain := Domain.plate
  value := List.prod

/-- The first eight columns of the plate in a piece, and the last two in a piece
that is pinned.  One cut of the first eight leaves both halves queued, and refining
on ends after two more cuts. -/
theorem Refinement.queue_refineAll_plate :
    let r := Regressor.forObjective leastSquares Objective.onPlate .constant 2
    let m := PiecewiseMap.ofBoxes Domain.plate .constant
      [Box.onPlate 0 7 2, Box.onPlate 8 1 2]
    let s := (evaluatePinned m r 1).refineAll [(1, 1)]
    (r.objective.domain == m.domain) = true ∧ s.map.size = 3 ∧
      0 ∈ s.queue.entries.map (·.ix) ∧ 2 ∈ s.queue.entries.map (·.ix) ∧
      1 ∉ s.queue.entries.map (·.ix) ∧
      (∃ c, s.map.boxes[1]? = some c ∧
        c.extents = (Box.onPlate 8 1 2).extents) ∧
      (s.refine 20 6).1 = 2 ∧
      ∃ b, (s.refine 20 6).2.map.boxes[4]? = some b ∧ b.isPoint = false ∧
        (r.fit b).error ≤ 6 := by
  intro r m s
  have hdomain : (r.objective.domain == m.domain) = true := by decide +kernel
  obtain ⟨-, hqueued, -, -, hpinned, hended⟩ :=
    Refinement.queue_refineAll m r 1 [(1, 1)] hdomain (rfl : s = _)
  have hbox : ∀ (t : Refinement ℚ) (ix : ℕ), t.map.boxes[ix]?.map (·.isPoint) = some false →
      ∃ b, t.map.boxes[ix]? = some b ∧ b.isPoint = false :=
    fun t ix ht => Option.map_eq_some_iff.mp ht
  obtain ⟨lower, hlower, hlowerPoint⟩ := hbox s 0 (by decide +kernel)
  obtain ⟨upper, hupper, hupperPoint⟩ := hbox s 2 (by decide +kernel)
  obtain ⟨b, hb, hpoint⟩ := hbox (s.refine 20 6).2 4 (by decide +kernel)
  have hcuts : (s.refine 20 6).1 = 2 := by decide +kernel
  refine ⟨hdomain, by decide +kernel, ?_, ?_, ?_, hpinned 1 _ rfl (Nat.le_refl 1), hcuts,
    b, hb, hpoint, ?_⟩
  · exact (hqueued 0).mpr ⟨lower, hlower, hlowerPoint, Or.inl Nat.one_pos⟩
  · exact (hqueued 2).mpr ⟨upper, hupper, hupperPoint, Or.inr (Nat.le_refl 2)⟩
  · rintro hmem
    obtain ⟨-, -, -, hdue | hdue⟩ := (hqueued 1).mp hmem
    · exact absurd hdue (Nat.lt_irrefl 1)
    · exact absurd hdue (by decide)
  · exact hended 20 6 (by decide) (by decide +kernel) (by rw [hcuts]; decide) 4 b hb hpoint
      (Or.inr (by decide))

end IntervalProgramming
