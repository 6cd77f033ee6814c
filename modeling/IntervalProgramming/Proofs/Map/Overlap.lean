import Mathlib.Data.List.Pairwise
import IntervalProgramming.Map.Basic
import IntervalProgramming.Proofs.Grid.Index

/-!
# Overlap queries and values of a map

On a map whose boxes span the dimensions of its domain a grid changes no
answer: an overlap query lists the boxes that meet the query, the value at a
tuple is that of the first box holding it, and the bound inside a query lies
above every value there.
-/

namespace IntervalProgramming

/-! ## Small domains -/

/-- The domain of one variable with the values 0 and 1. -/
def Domain.switch : Domain ℚ where
  vars := [{
    name := "x"
    low := 0
    high := 1
    points := 2
    low_finite := rfl
    high_finite := rfl
    ordered := by decide
    points_ne_zero := by decide
    single := by decide }]
  unique := by decide

/-- The domain of a variable with ten whole values and one with three. -/
def Domain.plate : Domain ℚ where
  vars := [{
    name := "x"
    low := 0
    high := 9
    points := 10
    low_finite := rfl
    high_finite := rfl
    ordered := by decide
    points_ne_zero := by decide
    single := by decide }, {
    name := "y"
    low := 0
    high := 2
    points := 3
    low_finite := rfl
    high_finite := rfl
    ordered := by decide
    points_ne_zero := by decide
    single := by decide }]
  unique := by decide

/-- Both indices of the switch. -/
def Interval.switch : Interval :=
  { lo := 0, hi := 1 }

/-- The box of one index of the switch, or of both, with a constant value. -/
def Box.onSwitch (i : Interval) (value : ℚ) : Box ℚ where
  extents := [{ i with dim := 0 }]
  slopes := [0]
  intercept := value

/-- The box from one column of the plate to the one so many steps on, over the rows
up to the given one. -/
def Box.onPlate (column steps row : ℕ) : Box ℚ :=
  Box.ofIntervals [⟨column, column + steps, Nat.le_add_right column steps⟩,
    ⟨0, row, Nat.zero_le row⟩]

namespace PiecewiseMap

variable {α : Type} [Scalar α]

/-- Every box spans the dimensions of the domain. -/
def IsFull (m : PiecewiseMap α) : Prop :=
  ∀ b ∈ m.boxes, b.spansFirst m.domain.size = true

theorem isFull_iff_dimensions {m : PiecewiseMap α} :
    m.IsFull ↔ ∀ b ∈ m.boxes.toList, b.dimensions = List.range m.domain.size := by
  simp only [IsFull, Box.spansFirst_eq_true_iff, Array.mem_toList_iff]

/-- Every box has one slope for each extent. -/
def IsModelled (m : PiecewiseMap α) : Prop :=
  ∀ b ∈ m.boxes, b.slopes.length = b.extents.length

/-- No two boxes of the map overlap. -/
def IsDisjoint (m : PiecewiseMap α) : Prop :=
  m.boxes.toList.Pairwise fun b c => b.intersects c = false

/-- Whether some box of the map holds a tuple. -/
def Holds (m : PiecewiseMap α) (tuple : List ℕ) : Prop :=
  ∃ b ∈ m.boxes, b.contains tuple = true

/-! ## Overlap queries -/

/-- With or without a grid, an overlap query is a scan of the boxes. -/
theorem overlapping_eq {m : PiecewiseMap α} (hfull : m.IsFull)
    (query : Box α) :
    m.overlapping query =
      (List.range m.size).filter (Box.meetsAt m.boxes query) := by
  unfold overlapping
  cases hg : m.grid with
  | none => rfl
  | some g =>
      obtain ⟨cell, rfl⟩ := m.grid_current g hg
      exact Grid.query_build hfull cell query

theorem pairwise_overlapping {m : PiecewiseMap α} (hfull : m.IsFull)
    (query : Box α) : (m.overlapping query).Pairwise (· < ·) := by
  rw [overlapping_eq hfull]
  exact List.pairwise_lt_range.filter _

theorem mem_overlapping {m : PiecewiseMap α} (hfull : m.IsFull)
    {query : Box α} {ix : ℕ} :
    ix ∈ m.overlapping query ↔
      ∃ b, m.boxes[ix]? = some b ∧ b.intersects query = true := by
  rw [overlapping_eq hfull, List.mem_filter, List.mem_range,
    Grid.meetsAt_eq_true_iff]
  constructor
  · exact And.right
  · rintro ⟨b, hb, hmeet⟩
    exact ⟨(Array.getElem?_eq_some_iff.mp hb).1, b, hb, hmeet⟩

/-! ## Values -/

theorem find?_range_bind {β : Type} (p : β → Bool) (xs : List β) :
    ((List.range xs.length).find? fun ix =>
        (xs[ix]?.map p).getD false).bind (xs[·]?) = xs.find? p := by
  induction xs with
  | nil => rfl
  | cons x xs ih =>
      rw [List.length_cons, List.range_succ_eq_map, List.find?_cons,
        List.find?_cons]
      cases hx : p x with
      | true => simp [hx]
      | false =>
          simp only [List.getElem?_cons_zero, Option.map_some, Option.getD_some,
            hx, List.find?_map, Option.bind_map]
          exact ih

theorem meetsAt_ofPoint {m : PiecewiseMap α} (hfull : m.IsFull)
    (tuple : List ℕ) :
    Box.meetsAt m.boxes (Box.ofPoint tuple) = fun ix =>
      (m.boxes.toList[ix]?.map (·.contains tuple)).getD false := by
  funext ix
  rw [Box.meetsAt, Array.getElem?_toList]
  cases hb : m.boxes[ix]? with
  | none => rfl
  | some b =>
      exact Box.intersects_ofPoint (hfull b (Array.mem_of_getElem? hb)) tuple

/-- The value at a tuple is that of the first box holding it. -/
theorem eval?_eq {m : PiecewiseMap α} (hfull : m.IsFull) (tuple : List ℕ) :
    m.eval? tuple =
      (m.boxes.toList.find? (·.contains tuple)).map
        (·.evalAs tuple m.degree) := by
  rw [← find?_range_bind, Array.length_toList, ← meetsAt_ofPoint hfull]
  unfold eval?
  rw [overlapping_eq hfull, List.head?_filter, size]
  cases (List.range m.boxes.size).find?
      (Box.meetsAt m.boxes (Box.ofPoint tuple)) with
  | none => rfl
  | some ix =>
      simp only [Option.bind_eq_bind, Option.bind_some, Array.getElem?_toList]
      cases m.boxes[ix]? <;> rfl

/-- A map has a value exactly at the tuples that its boxes hold. -/
theorem eval?_isSome {m : PiecewiseMap α} (hfull : m.IsFull)
    (tuple : List ℕ) : (m.eval? tuple).isSome = true ↔ m.Holds tuple := by
  rw [eval?_eq hfull, Option.isSome_map, List.find?_isSome]
  simp only [Holds, Array.mem_toList_iff]

theorem exists_of_eval?_eq_some {m : PiecewiseMap α} (hfull : m.IsFull)
    {tuple : List ℕ} {x : α} (h : m.eval? tuple = some x) :
    ∃ b ∈ m.boxes, b.contains tuple = true ∧ b.evalAs tuple m.degree = x := by
  rw [eval?_eq hfull, Option.map_eq_some_iff] at h
  obtain ⟨b, hfind, hx⟩ := h
  have hholds : b.contains tuple = true :=
    List.find?_some (p := fun b : Box α => b.contains tuple) hfind
  exact ⟨b, Array.mem_toList_iff.mp (List.mem_of_find?_eq_some hfind), hholds, hx⟩

theorem intersects_of_contains {m : PiecewiseMap α} (hfull : m.IsFull)
    {tuple : List ℕ} {b c : Box α} (hb : b ∈ m.boxes) (hc : c ∈ m.boxes)
    (hbt : b.contains tuple = true) (hct : c.contains tuple = true) :
    b.intersects c = true := by
  have hdim : b.dimensions = c.dimensions := by
    rw [Box.spansFirst_eq_true_iff.mp (hfull b hb),
      Box.spansFirst_eq_true_iff.mp (hfull c hc)]
  exact (Box.intersects_iff_exists hdim).mpr ⟨tuple, hbt, hct⟩

theorem eq_of_contains {m : PiecewiseMap α} (hfull : m.IsFull)
    (hdisjoint : m.IsDisjoint) {tuple : List ℕ} {b c : Box α}
    (hb : b ∈ m.boxes) (hc : c ∈ m.boxes) (hbt : b.contains tuple = true)
    (hct : c.contains tuple = true) : b = c := by
  have hsymm : Std.Symm fun b c : Box α => b.intersects c = false :=
    ⟨fun b c h => by rw [Box.intersects_comm, h]⟩
  by_contra hne
  have hno := hdisjoint.forall (Array.mem_toList_iff.mpr hb)
    (Array.mem_toList_iff.mpr hc) hne
  rw [intersects_of_contains hfull hb hc hbt hct] at hno
  cases hno

/-- Without overlaps any box holding a tuple has the value of the map there. -/
theorem eval?_of_contains {m : PiecewiseMap α} (hfull : m.IsFull)
    (hdisjoint : m.IsDisjoint) {tuple : List ℕ} {b : Box α} (hb : b ∈ m.boxes)
    (htuple : b.contains tuple = true) :
    m.eval? tuple = some (b.evalAs tuple m.degree) := by
  have hsome := (eval?_isSome hfull tuple).mpr ⟨b, hb, htuple⟩
  obtain ⟨x, hx⟩ := Option.isSome_iff_exists.mp hsome
  obtain ⟨c, hc, hctuple, rfl⟩ := exists_of_eval?_eq_some hfull hx
  rw [hx, eq_of_contains hfull hdisjoint hb hc htuple hctuple]

/-! ## Bounds -/

/-- The bound inside a query covers the values of the boxes that meet it. -/
theorem covers_bound {m : PiecewiseMap ℚ} (hfull : m.IsFull) {query b : Box ℚ}
    (hb : b ∈ m.boxes) (hmeet : b.intersects query = true) :
    Scalar.Covers (m.bound query) (b.maxValAs m.degree) := by
  unfold bound
  cases hg : m.grid with
  | none =>
      simp only [Scalar.covers_upperBound, List.mem_map, List.mem_filter]
      exact ⟨_, ⟨b, ⟨Array.mem_toList_iff.mpr hb, hmeet⟩, rfl⟩, le_refl _⟩
  | some g =>
      obtain ⟨cell, rfl⟩ := m.grid_current g hg
      exact Grid.covers_bound_build cell (hfull b hb)
        (Array.mem_toList_iff.mpr hb) hmeet (le_refl _)

end PiecewiseMap

end IntervalProgramming
