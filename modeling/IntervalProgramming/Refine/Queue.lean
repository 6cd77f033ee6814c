import IntervalProgramming.Scalar.Basic

/-!
# Refinement queues

A refinement queue holds positions of boxes with the error of each, and hands out the worst first: the
greatest error in the ranking of scalars and, among entries of one error, the lowest position.  The
same position may be queued more than once.

The queue is kept in that order, so the worst entry is always the first one.
-/

namespace IntervalProgramming

variable {α : Type} [Scalar α]

/-- A box position and its error. -/
structure QueueEntry (α : Type) [Scalar α] where
  ix : Nat
  error : α

namespace QueueEntry

/-- Whether `x` may be handed out before `y`: its error ranks higher, or ranks the same and its
position is not above. -/
def before (x y : QueueEntry α) : Bool :=
  Scalar.rankLE y.error x.error && (!Scalar.rankLE x.error y.error || decide (x.ix ≤ y.ix))

theorem before_total (x y : QueueEntry α) : x.before y = true ∨ y.before x = true := by
  rcases Scalar.rankLE_total x.error y.error with h | h
  · by_cases h' : Scalar.rankLE y.error x.error = true
    · simp only [before, h, h', Bool.not_true, Bool.false_or, Bool.true_and, decide_eq_true_eq]
      omega
    · right
      simp [before, h, h']
  · by_cases h' : Scalar.rankLE x.error y.error = true
    · simp only [before, h, h', Bool.not_true, Bool.false_or, Bool.true_and, decide_eq_true_eq]
      omega
    · left
      simp [before, h, h']

theorem before_trans {x y z : QueueEntry α} (hxy : x.before y = true) (hyz : y.before z = true) :
    x.before z = true := by
  simp only [before, Bool.and_eq_true, Bool.or_eq_true, Bool.not_eq_true',
    decide_eq_true_eq] at hxy hyz ⊢
  refine ⟨Scalar.rankLE_trans _ _ _ hyz.1 hxy.1, ?_⟩
  rcases hxy.2 with h | h
  · left
    by_cases hxz : Scalar.rankLE x.error z.error = true
    · have := Scalar.rankLE_trans _ _ _ hxz hyz.1
      simp [this] at h
    · simpa using hxz
  · rcases hyz.2 with h' | h'
    · left
      by_cases hxz : Scalar.rankLE x.error z.error = true
      · have := Scalar.rankLE_trans _ _ _ hxy.1 hxz
        simp [this] at h'
      · simpa using hxz
    · right
      omega

end QueueEntry

/-- A queue of box positions by error, worst first. -/
structure RefineQueue (α : Type) [Scalar α] where
  /-- The entries in the order in which they are handed out. -/
  entries : List (QueueEntry α)
  sorted : entries.Pairwise fun x y => x.before y = true

namespace RefineQueue

/-- The queue without entries. -/
def empty : RefineQueue α :=
  ⟨[], List.Pairwise.nil⟩

/-- Put an entry before the first one that it may be handed out before. -/
def insertEntry (x : QueueEntry α) : List (QueueEntry α) → List (QueueEntry α)
  | [] => [x]
  | y :: rest => if x.before y then x :: y :: rest else y :: insertEntry x rest

theorem mem_insertEntry {x z : QueueEntry α} {xs : List (QueueEntry α)} :
    z ∈ insertEntry x xs ↔ z = x ∨ z ∈ xs := by
  induction xs with
  | nil => simp [insertEntry]
  | cons y rest ih =>
    simp only [insertEntry]
    split
    · simp
    · simp only [List.mem_cons, ih]
      constructor
      · rintro (h | h | h)
        · exact Or.inr (Or.inl h)
        · exact Or.inl h
        · exact Or.inr (Or.inr h)
      · rintro (h | h | h)
        · exact Or.inr (Or.inl h)
        · exact Or.inl h
        · exact Or.inr (Or.inr h)

theorem pairwise_insertEntry {x : QueueEntry α} {xs : List (QueueEntry α)}
    (h : xs.Pairwise fun x y => x.before y = true) :
    (insertEntry x xs).Pairwise fun x y => x.before y = true := by
  induction xs with
  | nil => simp [insertEntry]
  | cons y rest ih =>
    have hy := List.pairwise_cons.mp h
    simp only [insertEntry]
    split
    · rename_i hxy
      refine List.pairwise_cons.mpr ⟨?_, h⟩
      intro z hz
      rcases List.mem_cons.mp hz with rfl | hz
      · exact hxy
      · exact QueueEntry.before_trans hxy (hy.1 z hz)
    · rename_i hxy
      refine List.pairwise_cons.mpr ⟨?_, ih hy.2⟩
      intro z hz
      rcases mem_insertEntry.mp hz with rfl | hz
      · exact (QueueEntry.before_total z y).resolve_left hxy
      · exact hy.1 z hz

/-- Add an entry. -/
def push (q : RefineQueue α) (ix : Nat) (error : α) : RefineQueue α where
  entries := insertEntry ⟨ix, error⟩ q.entries
  sorted := pairwise_insertEntry q.sorted

/-- The entry that is handed out next, and the queue without it. -/
def pop? (q : RefineQueue α) : Option (QueueEntry α × RefineQueue α) :=
  match q with
  | ⟨[], _⟩ => none
  | ⟨x :: rest, h⟩ => some (x, ⟨rest, (List.pairwise_cons.mp h).2⟩)

/-- The error of the entry that is handed out next. -/
def peek? (q : RefineQueue α) : Option α :=
  q.entries.head?.map (·.error)

/-- The number of entries. -/
def size (q : RefineQueue α) : Nat :=
  q.entries.length

/-- Whether the queue has no entry. -/
def isEmpty (q : RefineQueue α) : Bool :=
  q.entries.isEmpty

theorem length_insertEntry (x : QueueEntry α) (xs : List (QueueEntry α)) :
    (insertEntry x xs).length = xs.length + 1 := by
  induction xs with
  | nil => rfl
  | cons y rest ih =>
    simp only [insertEntry]
    split
    · rfl
    · simp only [List.length_cons, ih]

theorem size_push (q : RefineQueue α) (ix : Nat) (error : α) :
    (q.push ix error).size = q.size + 1 :=
  length_insertEntry ⟨ix, error⟩ q.entries

theorem size_lt_of_pop? {q rest : RefineQueue α} {x : QueueEntry α}
    (h : q.pop? = some (x, rest)) : rest.size < q.size := by
  obtain ⟨_ | ⟨y, ys⟩, hs⟩ := q
  · simp [pop?] at h
  · simp only [pop?, Option.some.injEq, Prod.mk.injEq] at h
    obtain ⟨-, rfl⟩ := h
    simp [size]

end RefineQueue

end IntervalProgramming
