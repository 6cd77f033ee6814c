import IntervalProgramming.Fit.Regressor
import IntervalProgramming.Map.Basic
import IntervalProgramming.Refine.Queue

/-!
# Refinement by error

A map is refined by cutting its worst fitting boxes.  First every box is fitted and queued with its
error; then the worst box is taken from the queue, cut at the midpoint of its longest extent, and both
halves are fitted and queued in turn, until the number of cuts is spent, the queue is empty, or the
worst error is small enough.  The lower half keeps the position of the box and the upper half comes
after all boxes.  Boxes of a single index tuple cannot be cut and are not queued, and pinned boxes are
fitted without being queued.

A regressor whose objective lives over another domain than the map does nothing.

Every fit computes its number of check indices in a count word.  The functions with that in their
name have no result if a fit on the way has none.
-/

namespace IntervalProgramming

variable {α : Type} [Scalar α]

/-- A map under refinement: the queue of its boxes and the regressor in use. -/
structure Refinement (α : Type) [Scalar α] where
  map : PiecewiseMap α
  queue : RefineQueue α
  regressor : Regressor α

namespace Refinement

/-- Queue a box by its error unless it is a single index tuple. -/
def enqueue (queue : RefineQueue α) (ix : Nat) (fit : FitResult α) : RefineQueue α :=
  if fit.box.isPoint then queue else queue.push ix fit.error

theorem size_enqueue_le (queue : RefineQueue α) (ix : Nat) (fit : FitResult α) :
    (enqueue queue ix fit).size ≤ queue.size + 1 := by
  simp only [enqueue]
  split
  · exact Nat.le_succ _
  · exact Nat.le_of_eq (RefineQueue.size_push queue ix fit.error)

/-- Put the fit of the box at position `ix` in its place and queue it, unless it is pinned. -/
def storeFit (pinnedFrom : Nat) (s : Refinement α) (ix : Nat) (fit : FitResult α) :
    Refinement α where
  map := s.map.modifyBox ix fun _ => fit.box
  queue := if ix < pinnedFrom then enqueue s.queue ix fit else s.queue
  regressor := fit.regressor

/-- Fit the box at position `ix` and queue it, unless it is pinned. -/
def fitBox (pinnedFrom : Nat) (s : Refinement α) (ix : Nat) : Refinement α :=
  match s.map.boxes[ix]? with
  | none => s
  | some b => s.storeFit pinnedFrom ix (s.regressor.fit b)

/-- Fit the box at position `ix` in words. -/
def fitBoxInWords? (pinnedFrom : Nat) (s : Refinement α) (ix : Nat) : Option (Refinement α) :=
  match s.map.boxes[ix]? with
  | none => some s
  | some b => (s.regressor.fitInWords? b).map (s.storeFit pinnedFrom ix)

/-- Fit every box of a map and queue those before position `pinnedFrom` that can be cut. -/
def evaluatePinned (m : PiecewiseMap α) (r : Regressor α) (pinnedFrom : Nat) : Refinement α :=
  let start : Refinement α := { map := m, queue := RefineQueue.empty, regressor := r }
  if r.objective.domain == m.domain then
    (List.range m.size).foldl (fitBox pinnedFrom) start
  else start

/-- Fit every box of a map in words. -/
def evaluatePinnedInWords? (m : PiecewiseMap α) (r : Regressor α) (pinnedFrom : Nat) :
    Option (Refinement α) :=
  let start : Refinement α := { map := m, queue := RefineQueue.empty, regressor := r }
  if r.objective.domain == m.domain then
    (List.range m.size).foldlM (fitBoxInWords? pinnedFrom) start
  else some start

/-- Fit every box of a map and queue those that can be cut. -/
def evaluate (m : PiecewiseMap α) (r : Regressor α) : Refinement α :=
  evaluatePinned m r m.size

/-- Fit every box of a map in words and queue those that can be cut. -/
def evaluateInWords? (m : PiecewiseMap α) (r : Regressor α) : Option (Refinement α) :=
  evaluatePinnedInWords? m r m.size

/-- The halves of the box at position `ix`, cut at the midpoint of its longest extent; `none` if there
is no such box or it cannot be cut. -/
def halves? (s : Refinement α) (ix : Nat) : Option (Box α × Box α) := do
  let b ← s.map.boxes[ix]?
  b.cut? b.longestExtent

/-- Put the fits of the two halves of the box at position `ix` in its place and after all boxes, and
queue them. -/
def storeHalves (s : Refinement α) (ix : Nat) (lower upper : FitResult α) : Refinement α where
  map := (s.map.modifyBox ix fun _ => lower.box).append upper.box
  queue := enqueue (enqueue s.queue ix lower) s.map.size upper
  regressor := upper.regressor

theorem size_storeHalves_le (s : Refinement α) (ix : Nat) (lower upper : FitResult α) :
    (s.storeHalves ix lower upper).queue.size ≤ s.queue.size + 2 := by
  have h1 := size_enqueue_le s.queue ix lower
  have h2 := size_enqueue_le (enqueue s.queue ix lower) s.map.size upper
  exact Nat.le_trans h2 (Nat.succ_le_succ h1)

/-- Cut the box at position `ix` and fit and queue both halves; `none` if there is no such box or it
cannot be cut. -/
def cutBox? (s : Refinement α) (ix : Nat) : Option (Refinement α) :=
  (s.halves? ix).map fun (lower, upper) =>
    let lowerFit := s.regressor.fit lower
    s.storeHalves ix lowerFit (lowerFit.regressor.fit upper)

theorem size_cutBox?_le {s t : Refinement α} {ix : Nat} (h : s.cutBox? ix = some t) :
    t.queue.size ≤ s.queue.size + 2 := by
  simp only [cutBox?, Option.map_eq_some_iff] at h
  obtain ⟨⟨lower, upper⟩, -, rfl⟩ := h
  exact size_storeHalves_le s ix _ _

/-- Cut the box at position `ix` in words; the inner option is `none` if there is no such box or it
cannot be cut. -/
def cutBoxInWords? (s : Refinement α) (ix : Nat) : Option (Option (Refinement α)) :=
  match s.halves? ix with
  | none => some none
  | some (lower, upper) => do
    let lowerFit ← s.regressor.fitInWords? lower
    let upperFit ← lowerFit.regressor.fitInWords? upper
    return some (s.storeHalves ix lowerFit upperFit)

theorem size_cutBoxInWords?_le {s t : Refinement α} {ix : Nat}
    (h : s.cutBoxInWords? ix = some (some t)) : t.queue.size ≤ s.queue.size + 2 := by
  simp only [cutBoxInWords?] at h
  split at h
  · cases h
  · simp only [Option.bind_eq_bind, Option.bind_eq_some_iff, Option.pure_def,
      Option.some.injEq] at h
    obtain ⟨lowerFit, -, upperFit, -, rfl⟩ := h
    exact size_storeHalves_le s _ lowerFit upperFit

/-- The refinement without the entry that comes next, and the entry, as long as its error is above
the threshold. -/
def next? (s : Refinement α) (threshold : α) : Option (QueueEntry α × Refinement α) :=
  match s.queue.pop? with
  | none => none
  | some (entry, rest) =>
    if threshold < entry.error then some (entry, { s with queue := rest }) else none

theorem size_lt_of_next? {s t : Refinement α} {threshold : α} {entry : QueueEntry α}
    (h : s.next? threshold = some (entry, t)) : t.queue.size < s.queue.size := by
  simp only [next?] at h
  split at h
  · cases h
  · rename_i hp
    split at h
    · simp only [Option.some.injEq, Prod.mk.injEq] at h
      obtain ⟨-, rfl⟩ := h
      exact RefineQueue.size_lt_of_pop? hp
    · cases h

/-- Make at most `budget` cuts and count them.  An entry without a box that can be cut is dropped and
costs nothing.  Every step takes an entry from the queue, and a cut adds at most two. -/
def cutWorst (s : Refinement α) (budget : Nat) (threshold : α) : Nat × Refinement α :=
  if _hb : budget = 0 then (0, s)
  else
    match _hn : s.next? threshold with
    | none => (0, s)
    | some (entry, t) =>
      match _hc : t.cutBox? entry.ix with
      | none => t.cutWorst budget threshold
      | some cut =>
        let (cuts, last) := cut.cutWorst (budget - 1) threshold
        (cuts + 1, last)
termination_by 2 * budget + s.queue.size
decreasing_by
  · have := size_lt_of_next? _hn
    omega
  · have := size_lt_of_next? _hn
    have := size_cutBox?_le _hc
    omega

/-- Make at most `budget` cuts in words and count them. -/
def cutWorstInWords? (s : Refinement α) (budget : Nat) (threshold : α) :
    Option (Nat × Refinement α) :=
  if _hb : budget = 0 then some (0, s)
  else
    match _hn : s.next? threshold with
    | none => some (0, s)
    | some (entry, t) =>
      match _hc : t.cutBoxInWords? entry.ix with
      | none => none
      | some none => t.cutWorstInWords? budget threshold
      | some (some cut) =>
        (cut.cutWorstInWords? (budget - 1) threshold).map fun (cuts, last) => (cuts + 1, last)
termination_by 2 * budget + s.queue.size
decreasing_by
  · have := size_lt_of_next? _hn
    omega
  · have := size_lt_of_next? _hn
    have := size_cutBoxInWords?_le _hc
    omega

/-- Refine a map by at most `budget` cuts, as long as the worst error is above the threshold, and
bring its grid up to date.  Without a budget or a box nothing changes. -/
def refine (s : Refinement α) (budget : Nat) (threshold : α) : Nat × Refinement α :=
  if s.map.isEmpty || budget == 0 || !(s.regressor.objective.domain == s.map.domain) then (0, s)
  else
    let (cuts, last) := s.cutWorst budget threshold
    (cuts, { last with map := last.map.updateGrid })

/-- Refine a map in words. -/
def refineInWords? (s : Refinement α) (budget : Nat) (threshold : α) :
    Option (Nat × Refinement α) :=
  if s.map.isEmpty || budget == 0 || !(s.regressor.objective.domain == s.map.domain) then
    some (0, s)
  else
    (s.cutWorstInWords? budget threshold).map fun (cuts, last) =>
      (cuts, { last with map := last.map.updateGrid })

end Refinement

end IntervalProgramming
