import Mathlib.Data.List.Forall2
import IntervalProgramming.Tuple
import IntervalProgramming.Word

/-!
# Counters

A product of axes can be gone through in place: turn the first coordinate on,
and where it is at its end start it over and turn the next one on.  A counter
is such a loop together with a measure by which it ends.  Its places are
counters of their own, and it lists the product of what they list, every tuple
once, the first coordinate running fastest, and stops after the last tuple.
The coordinates are held in words, and a counter has no result if one of them
leaves its word on the way.
-/

namespace IntervalProgramming

/-- What a loop does in a state. -/
inductive Turn (σ : Type) where
  /-- It fails, since an index leaves its word. -/
  | overflow
  /-- It ends. -/
  | finished
  /-- It goes on in another state. -/
  | next (s : σ)

/-- What a loop does, as seen through a function on its states. -/
def Turn.map {σ τ : Type} (f : σ → τ) : Turn σ → Turn τ
  | .overflow => .overflow
  | .finished => .finished
  | .next s => .next (f s)

/-- A loop over states that goes on only while there is room. -/
structure Counter (σ : Type) where
  turn : σ → Turn σ
  room : σ → ℕ
  room_lt : ∀ {s s' : σ}, turn s = .next s' → room s' < room s

namespace Counter

variable {σ : Type}

/-- The states from one on, in order; `none` if an index leaves its word. -/
def listFrom? (c : Counter σ) (s : σ) : Option (List σ) :=
  match _h : c.turn s with
  | .overflow => none
  | .finished => some [s]
  | .next s' => (c.listFrom? s').map (s :: ·)
termination_by c.room s
decreasing_by exact c.room_lt _h

/-- Whether the states from one on pass a test, tried in order up to the first
that fails; `none` if an index leaves its word before that. -/
def allFrom? (c : Counter σ) (test : σ → Bool) (s : σ) : Option Bool :=
  if test s then
    match _h : c.turn s with
    | .overflow => none
    | .finished => some true
    | .next s' => c.allFrom? test s'
  else some false
termination_by c.room s
decreasing_by exact c.room_lt _h

theorem listFrom?_of_finished {c : Counter σ} {s : σ} (h : c.turn s = .finished) :
    c.listFrom? s = some [s] := by
  rw [listFrom?]
  split
  · simp_all
  · rfl
  · simp_all

theorem listFrom?_of_next {c : Counter σ} {s s' : σ} (h : c.turn s = .next s') :
    c.listFrom? s = (c.listFrom? s').map (s :: ·) := by
  rw [listFrom?]
  split
  · simp_all
  · simp_all
  · rename_i hnext
    obtain rfl := Turn.next.inj (h.symm.trans hnext)
    rfl

/-- A list ends with the state it starts from or goes on from the next one. -/
theorem listFrom?_cases {c : Counter σ} {s : σ} {states : List σ}
    (h : c.listFrom? s = some states) :
    c.turn s = .finished ∧ states = [s] ∨
      ∃ s' rest, c.turn s = .next s' ∧ c.listFrom? s' = some rest ∧
        states = s :: rest := by
  cases hturn : c.turn s with
  | overflow =>
      rw [listFrom?] at h
      split at h <;> simp_all
  | finished =>
      rw [listFrom?_of_finished hturn] at h
      exact Or.inl ⟨rfl, (Option.some.inj h).symm⟩
  | next s' =>
      rw [listFrom?_of_next hturn] at h
      obtain ⟨rest, hrest, rfl⟩ := Option.map_eq_some_iff.mp h
      exact Or.inr ⟨s', rest, rfl, hrest, rfl⟩

theorem listFrom?_ne_nil (c : Counter σ) (s : σ) : c.listFrom? s ≠ some [] := by
  intro h
  rcases listFrom?_cases h with ⟨-, hnil⟩ | ⟨_, _, -, -, hnil⟩
  · cases hnil
  · cases hnil

/-- A test along a counter comes out as on its list. -/
theorem allFrom?_eq {c : Counter σ} {s : σ} {states : List σ}
    (h : c.listFrom? s = some states) (test : σ → Bool) :
    c.allFrom? test s = some (states.all test) := by
  have hcases := listFrom?_cases h
  fun_induction allFrom? c test s generalizing states with
  | case1 s hs hturn => simp_all
  | case2 s hs hturn => simp_all
  | case3 s hs s' hturn ih =>
      obtain ⟨hend, -⟩ | ⟨next, rest, hnext, hrest, rfl⟩ := hcases
      · simp_all
      · obtain rfl := Turn.next.inj (hturn.symm.trans hnext)
        rw [ih hrest (listFrom?_cases hrest), List.all_cons, hs, Bool.true_and]
  | case4 s hs =>
      obtain ⟨-, rfl⟩ | ⟨_, rest, -, -, rfl⟩ := hcases
      · simp [hs]
      · simp [hs]

/-- A counter that adds one up to a last index lists a range. -/
theorem listFrom?_range' {c : Counter ℕ} {last : ℕ}
    (hnext : ∀ j < last, c.turn j = .next (j + 1)) (hlast : c.turn last = .finished)
    {j : ℕ} (hj : j ≤ last) :
    c.listFrom? j = some (List.range' j (last + 1 - j)) := by
  induction hn : last - j generalizing j with
  | zero =>
      obtain rfl : j = last := by omega
      rw [listFrom?_of_finished hlast, Nat.add_sub_cancel_left, List.range'_one]
  | succ n ih =>
      have hlt : j < last := by omega
      have hlen : last + 1 - j = last + 1 - (j + 1) + 1 := by omega
      rw [listFrom?_of_next (hnext j hlt), ih hlt (by omega), hlen, List.range'_succ]
      rfl

end Counter

/-! ## Places -/

/-- A place of a counter of tuples: a counter of indices, and the index with
which it starts and starts over. -/
structure Place extends Counter ℕ where
  first : ℕ

namespace Place

/-- What the place of a limit does at an index: the index is turned on first and
compared with the limit then. -/
def turnBelow (after? : ℕ → Option ℕ) (n j : ℕ) : Turn ℕ :=
  match after? j with
  | none => .overflow
  | some next => if next < n then .next next else .finished

/-- What the place of a range does at an index: the index is compared with the
end first and turned on then. -/
def turnWithin (last j : ℕ) : Turn ℕ :=
  if j < last then
    match indexAfter? j with
    | none => .overflow
    | some next => .next next
  else .finished

theorem eq_succ_of_indexAfter? {j next : ℕ} (h : indexAfter? j = some next) :
    next = j + 1 := by
  grind [indexAfter?]

theorem eq_succ_of_countWord? {j next : ℕ} (h : countWord? (j + 1) = some next) :
    next = j + 1 := by
  grind [countWord?]

/-- The place that goes through the indices below a limit, turned on by a function
that gives the next index where its word has it. -/
def belowBy (after? : ℕ → Option ℕ)
    (hafter : ∀ {j next}, after? j = some next → next = j + 1) (n : ℕ) : Place where
  turn := turnBelow after? n
  room j := n - j
  room_lt := by
    intro j next h
    simp only [turnBelow] at h
    split at h
    · cases h
    · rename_i k hk
      have hsucc := hafter hk
      split at h
      · cases h
        omega
      · cases h
  first := 0

/-- The place that goes through the index words below a limit. -/
def below (n : ℕ) : Place :=
  belowBy indexAfter? eq_succ_of_indexAfter? n

/-- The place that goes through the count words below a limit. -/
def belowCount (n : ℕ) : Place :=
  belowBy (fun j => countWord? (j + 1)) eq_succ_of_countWord? n

/-- The place that goes through the indices of a range. -/
def within (range : ℕ × ℕ) : Place where
  turn := turnWithin range.2
  room j := range.2 - j
  room_lt := by
    intro j next h
    simp only [turnWithin, indexAfter?] at h
    grind
  first := range.1

/-- Whether a place goes through the indices of an axis. -/
def Lists (p : Place) (axis : List ℕ) : Prop :=
  p.listFrom? p.first = some axis

theorem lists_belowBy {after? : ℕ → Option ℕ}
    (hafter : ∀ {j next}, after? j = some next → next = j + 1) {n : ℕ} (hpos : 0 < n)
    (hword : ∀ j < n, after? j = some (j + 1)) :
    (belowBy after? hafter n).Lists (List.range n) := by
  have hnext : ∀ j < n - 1, (belowBy after? hafter n).turn j = .next (j + 1) := by
    intro j hj
    change turnBelow after? n j = _
    rw [turnBelow, hword j (by omega)]
    exact if_pos (by omega)
  have hlast : (belowBy after? hafter n).turn (n - 1) = .finished := by
    change turnBelow after? n (n - 1) = _
    rw [turnBelow, hword (n - 1) (by omega)]
    exact if_neg (by omega)
  have hlist := Counter.listFrom?_range' hnext hlast (Nat.zero_le _)
  rwa [Nat.sub_add_cancel hpos, Nat.sub_zero, ← List.range_eq_range'] at hlist

theorem lists_below {n : ℕ} (hpos : 0 < n) (hword : n ≤ maxIndex) :
    (below n).Lists (List.range n) :=
  lists_belowBy eq_succ_of_indexAfter? hpos fun _ _ => if_pos (by omega)

theorem lists_belowCount {n : ℕ} (hpos : 0 < n) (hword : n < countLimit) :
    (belowCount n).Lists (List.range n) :=
  lists_belowBy eq_succ_of_countWord? hpos fun _ _ => if_pos (by omega)

theorem lists_within {range : ℕ × ℕ} (hle : range.1 ≤ range.2)
    (hword : range.2 ≤ maxIndex) :
    (within range).Lists (List.range' range.1 (range.2 + 1 - range.1)) := by
  refine Counter.listFrom?_range' ?_ ?_ hle
  · intro j hj
    have hafter : indexAfter? j = some (j + 1) := if_pos (by omega)
    change turnWithin range.2 j = _
    rw [turnWithin, if_pos hj, hafter]
  · exact if_neg (Nat.lt_irrefl _)

/-- A place before the places of a counter: it is turned on first, and where it
is at its end it starts over and the others are turned on. -/
def ahead (p : Place) (c : Counter (List ℕ)) : Counter (List ℕ) where
  turn
    | [] => .finished
    | j :: tuple =>
        match p.turn j with
        | .overflow => .overflow
        | .finished => (c.turn tuple).map (p.first :: ·)
        | .next next => .next (next :: tuple)
  room
    | [] => 0
    | j :: tuple => p.room j + (p.room p.first + 1) * c.room tuple
  room_lt := by
    rintro (_ | ⟨j, tuple⟩) s' h
    · cases h
    · dsimp only at h
      split at h
      · cases h
      · cases hturn : c.turn tuple with
        | overflow =>
            rw [hturn] at h
            cases h
        | finished =>
            rw [hturn] at h
            cases h
        | next rest =>
            rw [hturn] at h
            obtain rfl := Turn.next.inj h
            have hroom := Nat.mul_le_mul_left (p.room p.first + 1) (c.room_lt hturn)
            dsimp only
            rw [Nat.mul_succ] at hroom
            omega
      · rename_i next hnext
        obtain rfl := Turn.next.inj h
        exact Nat.add_lt_add_right (p.room_lt hnext) _

variable {p : Place} {c : Counter (List ℕ)}

theorem turn_ahead_of_next {j next : ℕ} (h : p.turn j = .next next) (tuple : List ℕ) :
    (p.ahead c).turn (j :: tuple) = .next (next :: tuple) := by
  simp only [ahead, h]

theorem turn_ahead_of_finished {j : ℕ} (h : p.turn j = .finished) (tuple : List ℕ) :
    (p.ahead c).turn (j :: tuple) = (c.turn tuple).map (p.first :: ·) := by
  simp only [ahead, h]

/-- As long as the place in front is not at its end, nothing else is turned on. -/
theorem listFrom?_ahead_of_rest {tuple : List ℕ} {rest : Option (List (List ℕ))}
    (hrest : ∀ j, p.turn j = .finished →
      (p.ahead c).listFrom? (j :: tuple) = rest.map ((j :: tuple) :: ·))
    {j : ℕ} {js : List ℕ} (hjs : p.listFrom? j = some js) :
    (p.ahead c).listFrom? (j :: tuple) = rest.map (js.map (· :: tuple) ++ ·) := by
  induction js generalizing j with
  | nil => exact absurd hjs (p.listFrom?_ne_nil j)
  | cons k js ih =>
      rcases Counter.listFrom?_cases hjs with ⟨hend, heq⟩ | ⟨next, later, hnext, hlater, heq⟩
      · obtain ⟨rfl, rfl⟩ := List.cons.inj heq
        exact hrest k hend
      · obtain ⟨rfl, rfl⟩ := List.cons.inj heq
        rw [Counter.listFrom?_of_next (turn_ahead_of_next hnext tuple), ih hlater,
          Option.map_map]
        rfl

/-- A place in front goes through its axis for each tuple of the others. -/
theorem listFrom?_ahead {axis : List ℕ} (hp : p.Lists axis) {tuple : List ℕ}
    {tuples : List (List ℕ)} (hc : c.listFrom? tuple = some tuples) :
    (p.ahead c).listFrom? (p.first :: tuple) =
      some (tuples.flatMap fun tuple => axis.map (· :: tuple)) := by
  induction tuples generalizing tuple with
  | nil => exact absurd hc (c.listFrom?_ne_nil tuple)
  | cons t tuples ih =>
      rcases Counter.listFrom?_cases hc with ⟨hend, heq⟩ | ⟨next, later, hnext, hlater, heq⟩
      · obtain ⟨rfl, rfl⟩ := List.cons.inj heq
        have hrest : ∀ j, p.turn j = .finished →
            (p.ahead c).listFrom? (j :: t) = (some []).map ((j :: t) :: ·) := by
          intro j hj
          apply Counter.listFrom?_of_finished
          rw [turn_ahead_of_finished hj, hend]
          rfl
        rw [listFrom?_ahead_of_rest hrest hp]
        simp
      · obtain ⟨rfl, rfl⟩ := List.cons.inj heq
        have hrest : ∀ j, p.turn j = .finished →
            (p.ahead c).listFrom? (j :: t) =
              ((p.ahead c).listFrom? (p.first :: next)).map ((j :: t) :: ·) := by
          intro j hj
          apply Counter.listFrom?_of_next
          rw [turn_ahead_of_finished hj, hnext]
          rfl
        rw [listFrom?_ahead_of_rest hrest hp, ih hlater]
        rfl

end Place

namespace Counter

/-- The counter of places, the first one turned on first. -/
def ofPlaces : List Place → Counter (List ℕ)
  | [] => { turn := fun _ => .finished, room := fun _ => 0, room_lt := nofun }
  | p :: places => p.ahead (ofPlaces places)

/-- A counter lists the product of the axes of its places. -/
theorem listFrom?_ofPlaces {places : List Place} {axes : List (List ℕ)}
    (h : List.Forall₂ Place.Lists places axes) :
    (ofPlaces places).listFrom? (places.map (·.first)) =
      some (Tuple.firstFastest axes) := by
  induction h with
  | nil => exact listFrom?_of_finished rfl
  | cons hp _ ih => exact Place.listFrom?_ahead hp ih

end Counter

end IntervalProgramming
