import IntervalProgramming.Proofs.Box.Holders
import IntervalProgramming.Scalar.Rational
import IntervalProgramming.Word

/-!
# The difference of two boxes

What a box keeps outside another one is split into boxes that hold each tuple
there once, under the model of the box.  The bounds of the parts are computed
in index words, and none of them leaves its word: a bound is moved by one only
towards the inside of the box it belongs to.  Outside of what is subtracted the
boxes that hold a tuple change, but their models stay, in the same order.
-/

namespace IntervalProgramming

variable {α : Type} [Scalar α]

/-! ## Bounds in index words -/

namespace Extent

theorem of?_of_le {lo hi : ℕ} (h : lo ≤ hi) (dim : ℕ) :
    of? dim lo hi = some { lo := lo, hi := hi, le := h, dim := dim } :=
  dif_pos h

/-- The slab of a product before another one along the first dimension, if
there is one.  It is refused if its last index is no index word or comes before
its first one. -/
def slabBefore? (e f : Extent) (es : List Extent) : Option (List (List Extent)) :=
  if e.lo < f.lo then do
    let hi ← indexBefore? f.lo
    let slab ← of? e.dim e.lo hi
    return [slab :: es]
  else some []

/-- The slab of a product after another one along the first dimension, if there
is one.  It is refused if its first index is no index word or comes after its
last one. -/
def slabAfter? (e f : Extent) (es : List Extent) : Option (List (List Extent)) :=
  if f.hi < e.hi then do
    let lo ← indexAfter? f.hi
    let slab ← of? e.dim lo e.hi
    return [slab :: es]
  else some []

theorem slabBefore?_eq {e f : Extent} (h : e.Meets f) (es : List Extent) :
    slabBefore? e f es = some (if h : e.lo < f.lo ∧ f.lo ≤ e.hi then
      [⟨⟨e.lo, f.lo - 1, Nat.le_sub_one_of_lt h.1⟩, e.dim⟩ :: es] else []) := by
  obtain ⟨-, -, hlast⟩ := h
  unfold slabBefore?
  by_cases hlo : e.lo < f.lo
  · have hpos : 0 < f.lo := Nat.zero_lt_of_lt hlo
    have hle : e.lo ≤ f.lo - 1 := Nat.le_sub_one_of_lt hlo
    simp [hlo, hlast, indexBefore?, hpos, of?_of_le hle]
  · simp [hlo]

theorem slabAfter?_eq {e f : Extent} (h : e.Meets f) (hword : e.hi ≤ maxIndex)
    (es : List Extent) :
    slabAfter? e f es = some (if h : f.hi < e.hi ∧ e.lo ≤ f.hi then
      [⟨⟨f.hi + 1, e.hi, h.1⟩, e.dim⟩ :: es] else []) := by
  obtain ⟨-, hfirst, -⟩ := h
  unfold slabAfter?
  by_cases hhi : f.hi < e.hi
  · have hlt : f.hi < maxIndex := Nat.lt_of_lt_of_le hhi hword
    have hle : f.hi + 1 ≤ e.hi := hhi
    simp [hhi, hfirst, indexAfter?, hlt, of?_of_le hle]
  · simp [hhi]

end Extent

namespace Box

/-- The parts of a product of extents outside another one that it overlaps,
with every bound computed in an index word; `none` as soon as a bound leaves
its word or a part would be inverted. -/
def differenceInWords? : List Extent → List Extent → Option (List (List Extent))
  | e :: es, f :: fs => do
    let before ← Extent.slabBefore? e f es
    let after ← Extent.slabAfter? e f es
    let within ← Extent.of? e.dim (max e.lo f.lo) (min e.hi f.hi)
    let rest ← differenceInWords? es fs
    return before ++ after ++ rest.map (within :: ·)
  | _, _ => some []

/-- The parts of a box outside another one, with every bound computed in an
index word. -/
def subtractInWords? (b c : Box α) : Option (List (Box α)) :=
  if b.intersects c then
    (differenceInWords? b.extents c.extents).map fun parts =>
      parts.map fun extents => { b with extents := extents }
  else some [b]

/-- The bounds of every extent are index words in order. -/
def InWords (b : Box α) : Prop :=
  ∀ e ∈ b.extents, e.lo ≤ e.hi ∧ e.hi ≤ maxIndex

instance (b : Box α) : Decidable b.InWords :=
  inferInstanceAs (Decidable (∀ e ∈ b.extents, _))

/-- Between extents that meet, no bound of a difference leaves its word. -/
theorem differenceInWords?_eq {es fs : List Extent}
    (hmeet : List.Forall₂ Extent.Meets es fs) (hwords : ∀ e ∈ es, e.hi ≤ maxIndex) :
    differenceInWords? es fs = some (differenceExtents es fs) := by
  induction hmeet with
  | nil => rfl
  | @cons e f es fs hef _ ih =>
      obtain ⟨hword, hwords⟩ := List.forall_mem_cons.mp hwords
      have hle : max e.lo f.lo ≤ min e.hi f.hi := by
        have hle := e.le
        have hle' := f.le
        obtain ⟨-, hfirst, hlast⟩ := hef
        omega
      have hmeet? : e.meet? f.toInterval = some ⟨max e.lo f.lo, min e.hi f.hi, hle⟩ :=
        dif_pos hle
      simp only [differenceInWords?, differenceExtents, Extent.slabBefore?_eq hef,
        Extent.slabAfter?_eq hef hword, Extent.of?_of_le hle, ih hwords, hmeet?]
      rfl

theorem subtractInWords?_eq {b : Box α} (hb : b.InWords) (c : Box α) :
    b.subtractInWords? c = some (b.subtract c) := by
  unfold subtractInWords? subtract
  split
  · rename_i hmeet
    have hwords : ∀ e ∈ b.extents, e.hi ≤ maxIndex := fun e he => (hb e he).2
    rw [differenceInWords?_eq (intersects_eq_true_iff.mp hmeet) hwords, Option.map_some]
  · rfl

/-! ## The parts of a difference -/

/-- A box within another one has index words for bounds if that one has. -/
theorem InWords.of_isWithin {b c : Box α} (hc : c.InWords)
    (h : b.isWithin c = true) : b.InWords := by
  rw [isWithin_eq_true_iff] at h
  unfold InWords at hc ⊢
  generalize b.extents = es at h ⊢
  generalize c.extents = fs at h hc
  induction h with
  | nil => exact hc
  | @cons e f es fs hef _ ih =>
      obtain ⟨hf, hfs⟩ := List.forall_mem_cons.mp hc
      exact List.forall_mem_cons.mpr ⟨⟨e.le, hef.2.2.trans hf.2⟩, ih hfs⟩

theorem model_of_mem_subtract {b c part : Box α} (hpart : part ∈ b.subtract c) :
    part.slopes = b.slopes ∧ part.intercept = b.intercept := by
  unfold subtract at hpart
  split at hpart
  · obtain ⟨extents, -, rfl⟩ := List.mem_map.mp hpart
    exact ⟨rfl, rfl⟩
  · obtain rfl := List.mem_singleton.mp hpart
    exact ⟨rfl, rfl⟩

theorem subtract_of_dimensions_ne {b c : Box α} (hdim : b.dimensions ≠ c.dimensions) :
    b.subtract c = [b] :=
  if_neg fun hmeet => hdim (dimensions_eq_of_intersects hmeet)

/-- Subtracting a box with bounds in index words is exact.  The parts are boxes
over the same dimensions with bounds in order and in words, under the model of
the box they come from; computing their bounds never leaves the words.  A tuple
lies in one part if it lies in the box and, where the two boxes have the same
dimensions, outside the other one; otherwise it lies in no part.  Over other
dimensions the box stays whole. -/
theorem subtract_exact {b : Box α} (hb : b.InWords) (c : Box α) :
    (∀ part ∈ b.subtract c, part.dimensions = b.dimensions ∧ part.InWords ∧
      part.slopes = b.slopes ∧ part.intercept = b.intercept) ∧
    b.subtractInWords? c = some (b.subtract c) ∧
    (∀ tuple, holders (b.subtract c) tuple =
      if b.contains tuple = true ∧
          (b.dimensions = c.dimensions → c.contains tuple = false) then 1 else 0) ∧
    (b.dimensions ≠ c.dimensions → b.subtract c = [b]) := by
  refine ⟨?_, subtractInWords?_eq hb c, ?_, subtract_of_dimensions_ne⟩
  · intro part hpart
    exact ⟨dimensions_subtract hpart, hb.of_isWithin (isWithin_of_mem_subtract hpart),
      model_of_mem_subtract hpart⟩
  · intro tuple
    by_cases hdim : b.dimensions = c.dimensions
    · rw [holders_subtract hdim]
      cases b.contains tuple <;> cases c.contains tuple <;> simp [hdim]
    · rw [subtract_of_dimensions_ne hdim, holders_cons, holders_nil]
      cases b.contains tuple <;> simp [hdim]

/-- A box over two dimensions, the second one up to the last index there is,
without a corner of it: the tuples left lie in one part each. -/
theorem subtract_exact_corner :
    let b : Box ℚ := flat [⟨⟨2, 9, by decide⟩, 0⟩, ⟨⟨0, maxIndex, by decide⟩, 1⟩]
    let c : Box ℚ := flat [⟨⟨0, 4, by decide⟩, 0⟩, ⟨⟨7, maxIndex, by decide⟩, 1⟩]
    b.InWords ∧ b.subtractInWords? c = some (b.subtract c) ∧
      holders (b.subtract c) [5, 8] = 1 ∧ holders (b.subtract c) [4, 6] = 1 ∧
      holders (b.subtract c) [4, 7] = 0 := by
  intro b c
  have hb : b.InWords := by decide
  obtain ⟨-, hwords, hcount, -⟩ := subtract_exact hb c
  refine ⟨hb, hwords, ?_, ?_, ?_⟩
  · rw [hcount]
    decide
  · rw [hcount]
    decide
  · rw [hcount]
    decide

/-! ## Models at a tuple -/

/-- The slopes and the intercept of a box. -/
def model (b : Box α) : List α × α :=
  (b.slopes, b.intercept)

/-- The models of the boxes of a list that hold a tuple, in order. -/
def modelsAt (boxes : List (Box α)) (tuple : List ℕ) : List (List α × α) :=
  (boxes.filter (·.contains tuple)).map model

@[simp]
theorem modelsAt_append (boxes others : List (Box α)) (tuple : List ℕ) :
    modelsAt (boxes ++ others) tuple = modelsAt boxes tuple ++ modelsAt others tuple := by
  simp [modelsAt]

theorem length_modelsAt (boxes : List (Box α)) (tuple : List ℕ) :
    (modelsAt boxes tuple).length = holders boxes tuple := by
  rw [modelsAt, List.length_map, holders, List.countP_eq_length_filter]

/-- Outside the box that is subtracted, one part holds a tuple of the box. -/
theorem holders_subtract_of_outside {c : Box α} {tuple : List ℕ}
    (h : c.contains tuple = false) (b : Box α) :
    holders (b.subtract c) tuple = (b.contains tuple).toNat := by
  by_cases hdim : b.dimensions = c.dimensions
  · rw [holders_subtract hdim, h, Bool.not_false, Bool.and_true]
  · rw [subtract_of_dimensions_ne hdim, holders_cons, holders_nil, Nat.add_zero]

theorem modelsAt_subtract_of_outside {c : Box α} {tuple : List ℕ}
    (h : c.contains tuple = false) (b : Box α) :
    modelsAt (b.subtract c) tuple = modelsAt [b] tuple := by
  have hparts : modelsAt (b.subtract c) tuple =
      List.replicate (holders (b.subtract c) tuple) b.model := by
    rw [List.eq_replicate_iff]
    refine ⟨length_modelsAt _ _, fun x hx => ?_⟩
    obtain ⟨part, hpart, rfl⟩ := List.mem_map.mp hx
    obtain ⟨hslopes, hintercept⟩ := model_of_mem_subtract (List.mem_filter.mp hpart).1
    rw [model, hslopes, hintercept, model]
  rw [hparts, holders_subtract_of_outside h]
  cases hb : b.contains tuple <;> simp [modelsAt, hb]

/-- Outside a region that is subtracted from all boxes the models stay. -/
theorem modelsAt_subtractFrom {region : Box α} {tuple : List ℕ}
    (h : region.contains tuple = false) (boxes : List (Box α)) :
    modelsAt (subtractFrom boxes region) tuple = modelsAt boxes tuple := by
  induction boxes with
  | nil => rfl
  | cons b boxes ih =>
      rw [subtractFrom, List.flatMap_cons, modelsAt_append,
        modelsAt_subtract_of_outside h, ← subtractFrom, ih, ← modelsAt_append,
        List.singleton_append]

theorem modelsAt_foldl_subtractFrom {others : List (Box α)} {tuple : List ℕ}
    (h : ∀ c ∈ others, c.contains tuple = false) (boxes : List (Box α)) :
    modelsAt (others.foldl subtractFrom boxes) tuple = modelsAt boxes tuple := by
  induction others generalizing boxes with
  | nil => rfl
  | cons c others ih =>
      obtain ⟨hc, hothers⟩ := List.forall_mem_cons.mp h
      rw [List.foldl_cons, ih hothers, modelsAt_subtractFrom hc]

end Box

end IntervalProgramming
