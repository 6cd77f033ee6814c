import IntervalProgramming.Proofs.Refine.Worklist
import IntervalProgramming.Proofs.Scalar.TotalOrder

/-!
# Runs of a queue

A queue is called to add an entry or to hand one out, in any order.  Seen from
outside it is a multiset: a call adds an entry to it, or takes from it the entry
of the greatest error in the total order of bit patterns and, among the entries
with that very error, of the lowest position.  What a run hands out and what it
leaves make up what it was given, so the calls that empty a queue list its
entries from the worst on.  A queue of floating point errors serves its calls as
the queue of their bits does.
-/

namespace IntervalProgramming

variable {α : Type} [Scalar α]

/-- A call of a queue. -/
inductive QueueCall (α : Type) [Scalar α] where
  | push (ix : ℕ) (error : α)
  | pop

/-- The entry that a call adds. -/
def QueueCall.pushed? : QueueCall α → Option (QueueEntry α)
  | .push ix error => some ⟨ix, error⟩
  | .pop => none

namespace RefineQueue

/-- The answers to one call, one for a call that asks for an entry and none for
a call that adds one, and the queue afterwards. -/
def call (q : RefineQueue α) :
    QueueCall α → List (Option (QueueEntry α)) × RefineQueue α
  | .push ix error => ([], q.push ix error)
  | .pop =>
      match q.pop? with
      | none => ([none], q)
      | some (x, rest) => ([some x], rest)

/-- The answers to calls one after the other, and the queue after the last. -/
def run (q : RefineQueue α) :
    List (QueueCall α) → List (Option (QueueEntry α)) × RefineQueue α
  | [] => ([], q)
  | c :: calls =>
      let (answers, next) := q.call c
      let (later, last) := next.run calls
      (answers ++ later, last)

end RefineQueue

/-! ## The queue as a multiset -/

/-- Whether an entry is to be handed out next: its error is the greatest in the
total order, and its position the lowest of those with that error. -/
structure IsWorst (entries : Multiset (QueueEntry BitPattern))
    (x : QueueEntry BitPattern) : Prop where
  mem : x ∈ entries
  greatest : ∀ y ∈ entries, y.error.TotalLE x.error
  lowest : ∀ y ∈ entries, y.error = x.error → x.ix ≤ y.ix

/-- What one call may answer, and what it leaves of the entries. -/
inductive Serves : Multiset (QueueEntry BitPattern) → QueueCall BitPattern →
    List (Option (QueueEntry BitPattern)) →
    Multiset (QueueEntry BitPattern) → Prop
  | push (entries : Multiset (QueueEntry BitPattern)) (ix : ℕ) (error : BitPattern) :
      Serves entries (.push ix error) [] (⟨ix, error⟩ ::ₘ entries)
  | none_left : Serves 0 .pop [none] 0
  | pop {rest : Multiset (QueueEntry BitPattern)} {x : QueueEntry BitPattern}
      (hworst : IsWorst (x ::ₘ rest) x) : Serves (x ::ₘ rest) .pop [some x] rest

/-- What calls one after the other may answer, and what they leave. -/
inductive ServesAll : Multiset (QueueEntry BitPattern) →
    List (QueueCall BitPattern) → List (Option (QueueEntry BitPattern)) →
    Multiset (QueueEntry BitPattern) → Prop
  | nil (entries : Multiset (QueueEntry BitPattern)) : ServesAll entries [] [] entries
  | cons {entries next last : Multiset (QueueEntry BitPattern)}
      {c : QueueCall BitPattern} {calls : List (QueueCall BitPattern)}
      {answers later : List (Option (QueueEntry BitPattern))}
      (hfirst : Serves entries c answers next)
      (hlater : ServesAll next calls later last) :
      ServesAll entries (c :: calls) (answers ++ later) last

variable {entries last : Multiset (QueueEntry BitPattern)}
  {c : QueueCall BitPattern} {calls : List (QueueCall BitPattern)}
  {answers : List (Option (QueueEntry BitPattern))}

theorem Serves.balance (h : Serves entries c answers last) :
    entries + ↑c.pushed?.toList = ↑answers.reduceOption + last := by
  cases h with
  | push _ ix error =>
      calc
        entries + {⟨ix, error⟩} = ⟨ix, error⟩ ::ₘ entries := by
          rw [Multiset.add_comm, Multiset.singleton_add]
        _ = 0 + (⟨ix, error⟩ ::ₘ entries) := (Multiset.zero_add _).symm
  | none_left => rfl
  | @pop _ x hworst =>
      calc
        x ::ₘ last + 0 = x ::ₘ last := Multiset.add_zero _
        _ = {x} + last := (Multiset.singleton_add x last).symm

/-- Every entry given is handed out or left, and no other is. -/
theorem ServesAll.balance (h : ServesAll entries calls answers last) :
    entries + ↑(calls.filterMap QueueCall.pushed?) = ↑answers.reduceOption + last := by
  induction h with
  | nil entries => exact Multiset.add_comm entries 0
  | @cons entries next last c calls answers later hfirst _ ih =>
      have hcalls : (c :: calls).filterMap QueueCall.pushed? =
          c.pushed?.toList ++ calls.filterMap QueueCall.pushed? := by
        rw [List.filterMap_cons]
        cases c.pushed? <;> rfl
      rw [hcalls, List.reduceOption_append, ← Multiset.coe_add, ← Multiset.coe_add,
        ← Multiset.add_assoc, hfirst.balance, Multiset.add_assoc, ih, Multiset.add_assoc]

/-! ## Floating point errors -/

/-- The entry with the bits of its error. -/
def QueueEntry.withBits (x : QueueEntry Float) : QueueEntry BitPattern :=
  ⟨x.ix, .ofFloat x.error⟩

/-- The call with the bits of its error. -/
def QueueCall.withBits : QueueCall Float → QueueCall BitPattern
  | .push ix error => .push ix (.ofFloat error)
  | .pop => .pop

namespace RefineQueue

theorem map_insertEntry (x : QueueEntry Float) (xs : List (QueueEntry Float)) :
    (insertEntry x xs).map (·.withBits) =
      insertEntry x.withBits (xs.map (·.withBits)) := by
  induction xs with
  | nil => rfl
  | cons y rest ih =>
      have hbefore : x.withBits.before y.withBits = x.before y := rfl
      simp only [insertEntry, List.map_cons, hbefore]
      split
      · rfl
      · rw [List.map_cons, ih]

theorem call_withBits {q : RefineQueue Float} {bits : RefineQueue BitPattern}
    (h : bits.entries = q.entries.map (·.withBits)) (c : QueueCall Float) :
    (bits.call c.withBits).1 = (q.call c).1.map (Option.map (·.withBits)) ∧
      (bits.call c.withBits).2.entries = (q.call c).2.entries.map (·.withBits) := by
  cases c with
  | push ix error =>
      refine ⟨rfl, ?_⟩
      have hpush := map_insertEntry ⟨ix, error⟩ q.entries
      rw [← h] at hpush
      exact hpush.symm
  | pop =>
      obtain ⟨entries, hsorted⟩ := q
      obtain ⟨entriesBits, hsortedBits⟩ := bits
      obtain rfl := h
      cases entries with
      | nil => exact ⟨rfl, rfl⟩
      | cons x rest => exact ⟨rfl, rfl⟩

/-- A queue of floating point errors answers as that of their bits does. -/
theorem run_withBits {q : RefineQueue Float} {bits : RefineQueue BitPattern}
    (h : bits.entries = q.entries.map (·.withBits)) (calls : List (QueueCall Float)) :
    (bits.run (calls.map (·.withBits))).1 =
        (q.run calls).1.map (Option.map (·.withBits)) ∧
      (bits.run (calls.map (·.withBits))).2.entries =
        (q.run calls).2.entries.map (·.withBits) := by
  induction calls generalizing q bits with
  | nil => exact ⟨rfl, h⟩
  | cons c calls ih =>
      obtain ⟨hanswers, hentries⟩ := call_withBits h c
      obtain ⟨hlater, hlast⟩ := ih hentries
      simp only [run, List.map_cons, List.map_append]
      rw [hanswers, hlater]
      exact ⟨rfl, hlast⟩

end RefineQueue

/-! ## Runs -/

/-- When an entry may be handed out before another one. -/
theorem QueueEntry.before_iff {x y : QueueEntry BitPattern} :
    x.before y = true ↔
      y.error.TotalLE x.error ∧ (y.error = x.error → x.ix ≤ y.ix) := by
  have hxy : Scalar.rankLE x.error y.error = true ↔ x.error.TotalLE y.error :=
    BitPattern.rankLE_iff
  have hyx : Scalar.rankLE y.error x.error = true ↔ y.error.TotalLE x.error :=
    BitPattern.rankLE_iff
  rw [before, Bool.and_eq_true, Bool.or_eq_true, Bool.not_eq_true', ← Bool.not_eq_true,
    decide_eq_true_eq, hxy, hyx]
  constructor
  · rintro ⟨hle, hix⟩
    refine ⟨hle, ?_⟩
    intro heq
    rw [heq] at hle hix
    exact hix.resolve_left (not_not_intro hle)
  · rintro ⟨hle, hix⟩
    refine ⟨hle, ?_⟩
    by_cases hge : x.error.TotalLE y.error
    · exact Or.inr (hix (BitPattern.totalLE_antisymm hle hge))
    · exact Or.inl hge

namespace RefineQueue

theorem isWorst_of_pop? {q rest : RefineQueue BitPattern} {x : QueueEntry BitPattern}
    (h : q.pop? = some (x, rest)) : IsWorst ↑q.entries x := by
  have hbefore := before_of_pop? h
  refine ⟨?_, ?_, ?_⟩
  · rw [Multiset.mem_coe, entries_of_pop? h]
    exact List.mem_cons_self
  · intro y hy
    exact (QueueEntry.before_iff.mp (hbefore y hy)).1
  · intro y hy
    exact (QueueEntry.before_iff.mp (hbefore y hy)).2

/-- One call. -/
theorem serves_call (q : RefineQueue BitPattern) (c : QueueCall BitPattern) :
    Serves ↑q.entries c (q.call c).1 ↑(q.call c).2.entries := by
  cases c with
  | push ix error =>
      have hperm : (↑(q.push ix error).entries : Multiset (QueueEntry BitPattern)) =
          ⟨ix, error⟩ ::ₘ ↑q.entries :=
        Multiset.coe_eq_coe.mpr (perm_insertEntry ⟨ix, error⟩ q.entries)
      rw [call, hperm]
      exact .push _ ix error
  | pop =>
      rw [call]
      cases hpop : q.pop? with
      | none =>
          rw [entries_of_pop?_eq_none hpop]
          exact .none_left
      | some next =>
          obtain ⟨x, rest⟩ := next
          have hworst := isWorst_of_pop? hpop
          rw [entries_of_pop? hpop, ← Multiset.cons_coe] at hworst ⊢
          exact .pop hworst

theorem servesAll_run (q : RefineQueue BitPattern) (calls : List (QueueCall BitPattern)) :
    ServesAll ↑q.entries calls (q.run calls).1 ↑(q.run calls).2.entries := by
  induction calls generalizing q with
  | nil => exact .nil _
  | cons c calls ih => exact .cons (q.serves_call c) (ih _)

theorem peek?_eq (q : RefineQueue α) :
    q.peek? = q.pop?.map fun (x, _) => x.error := by
  obtain ⟨_ | ⟨x, rest⟩, hsorted⟩ := q
  · rfl
  · rfl

/-- As many calls as there are entries hand out all of them. -/
theorem run_drain (q : RefineQueue α) :
    q.run (List.replicate q.size .pop) = (q.entries.map some, empty) := by
  obtain ⟨entries, hsorted⟩ := q
  induction entries with
  | nil => rfl
  | cons x entries ih =>
      have hrest := ih (List.pairwise_cons.mp hsorted).2
      simp only [size, List.length_cons, List.replicate_succ, run, call, pop?] at hrest ⊢
      rw [hrest]
      rfl

/-- Run any calls on a new queue.  Every call for an entry is answered by the
worst entry there is, which leaves the queue, and by none when there is none; the
next error is that of the next such answer.  The size is the number of entries
added less the number handed out, and as many calls for an entry as the size hand
out the entries that are left, all of them once each, by falling error and, where
the error is the same, by rising position.  A queue of floating point errors gives
the same answers, and is left with the same entries, as that of their bits. -/
theorem run_hands_out_worst (calls : List (QueueCall BitPattern)) :
    let (answers, q) := (empty : RefineQueue BitPattern).run calls
    (∃ entries : Multiset (QueueEntry BitPattern),
      ServesAll 0 calls answers entries ∧
      q.peek? = q.pop?.map (fun (x, _) => x.error) ∧
      q.size = Multiset.card entries ∧
      q.size + answers.reduceOption.length =
        (calls.filterMap QueueCall.pushed?).length ∧
      ∃ drained : List (QueueEntry BitPattern),
        q.run (List.replicate q.size .pop) = (drained.map some, empty) ∧
        ↑drained = entries ∧
        drained.Pairwise fun x y =>
          y.error.TotalLE x.error ∧ (y.error = x.error → x.ix ≤ y.ix)) ∧
    ∀ floats : List (QueueCall Float), floats.map (·.withBits) = calls →
      let (floatAnswers, floatQueue) := (empty : RefineQueue Float).run floats
      floatAnswers.map (Option.map (·.withBits)) = answers ∧
        floatQueue.entries.map (·.withBits) = q.entries := by
  have hserves := (empty : RefineQueue BitPattern).servesAll_run calls
  have hfloats : ∀ floats : List (QueueCall Float), floats.map (·.withBits) = calls →
      ((empty : RefineQueue BitPattern).run calls).1 =
          ((empty : RefineQueue Float).run floats).1.map (Option.map (·.withBits)) ∧
        ((empty : RefineQueue BitPattern).run calls).2.entries =
          ((empty : RefineQueue Float).run floats).2.entries.map (·.withBits) := by
    rintro floats rfl
    exact run_withBits rfl floats
  generalize (empty : RefineQueue BitPattern).run calls = result at hserves hfloats
  obtain ⟨answers, q⟩ := result
  have hcard := congrArg Multiset.card hserves.balance
  simp only [empty, Multiset.card_add, Multiset.coe_card, List.length_nil] at hcard
  refine ⟨⟨q.entries, hserves, q.peek?_eq, rfl, ?_, q.entries, q.run_drain, rfl, ?_⟩,
    fun floats hbits => ⟨(hfloats floats hbits).1.symm, (hfloats floats hbits).2.symm⟩⟩
  · rw [size]
    omega
  · exact q.sorted.imp fun hbefore => QueueEntry.before_iff.mp hbefore

/-- Undefined values of either sign stand at the ends, and the negative zero
below the zeros, which go by position. -/
example :
    let pushes : List (QueueCall BitPattern) :=
      [.push 0 ⟨0xFFF8000000000000⟩, .push 1 ⟨0x8000000000000000⟩, .push 4 ⟨0⟩,
        .push 3 ⟨0x7FF8000000000000⟩, .push 2 ⟨0⟩]
    (((empty : RefineQueue BitPattern).run
      (pushes ++ List.replicate 6 .pop)).1.map (Option.map (·.ix))) =
      [some 3, some 2, some 4, some 1, some 0, none] := by
  decide

end RefineQueue

end IntervalProgramming
