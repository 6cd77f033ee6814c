/-!
# Machine words

Grid indices are natural numbers, and so are counts, but the words that hold them are finite: an index
has thirty-two bits and a count sixty-four.  A number that leaves its word is no result at all, so a
function in words has an option for its result.  Where a result can leave its word this library has
such a function beside the exact one, or in its place.  Everywhere else the exact result fits and
plain arithmetic is used.  If a function may also have no answer, its form in words is a computation
in two layers, the outer one empty where a number leaves its word and the inner one where there is no
answer.
-/

namespace IntervalProgramming

/-- The number of index words. -/
def indexLimit : Nat := Nat.pow 2 32

/-- The largest grid index. -/
def maxIndex : Nat := indexLimit - 1

theorem maxIndex_eq : maxIndex = 4294967295 :=
  rfl

/-- The number of count words. -/
def countLimit : Nat := Nat.pow 2 64

/-- The largest count. -/
def maxCount : Nat := countLimit - 1

/-- An index, where an index word has it. -/
def indexWord? (n : Nat) : Option Nat :=
  if n < indexLimit then some n else none

/-- A count, where a count word has it. -/
def countWord? (n : Nat) : Option Nat :=
  if n < countLimit then some n else none

/-- The index before another one, where an index word has it. -/
def indexBefore? (j : Nat) : Option Nat :=
  if 0 < j then some (j - 1) else none

/-- The index after another one, where an index word has it. -/
def indexAfter? (j : Nat) : Option Nat :=
  if j < maxIndex then some (j + 1) else none

theorem indexAfter?_of_lt {j : Nat} (h : j < maxIndex) : indexAfter? j = some (j + 1) :=
  if_pos h

theorem indexWord?_of_lt {n : Nat} (h : n < indexLimit) : indexWord? n = some n :=
  if_pos h

theorem countWord?_of_lt {n : Nat} (h : n < countLimit) : countWord? n = some n :=
  if_pos h

/-- A function with a result at each entry of a list has a result on the list. -/
theorem mapM_eq_some_map {β γ : Type} {f : β → Option γ} {g : β → γ} {xs : List β}
    (h : ∀ x ∈ xs, f x = some (g x)) : xs.mapM f = some (xs.map g) := by
  induction xs with
  | nil => rfl
  | cons x xs ih =>
    obtain ⟨hx, hxs⟩ := List.forall_mem_cons.mp h
    rw [List.mapM_cons, hx, ih hxs]
    rfl

/-! ## An answer in words, if there is one -/

section

variable {β γ : Type}

theorem lift_some (x : β) : (OptionT.lift (some x) : OptionT Option β) = pure x :=
  rfl

/-- Steps that stay in their words are steps that may have no answer. -/
theorem getM_bind (o : Option β) (f : β → Option γ) :
    (o.getM >>= fun x => (f x).getM : OptionT Option γ) = (o >>= f).getM := by
  cases o <;> rfl

theorem mapM_getM (f : β → Option γ) (xs : List β) :
    (xs.mapM fun x => (f x).getM : OptionT Option (List γ)) = (xs.mapM f).getM := by
  induction xs with
  | nil => rfl
  | cons x xs ih =>
    simp only [List.mapM_cons, ih, ← getM_bind]
    rfl

end

end IntervalProgramming
