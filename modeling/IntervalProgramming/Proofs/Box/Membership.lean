import Mathlib.Data.List.Forall2
import IntervalProgramming.Box.Geometry
import IntervalProgramming.Box.Model

/-!
# Membership and overlap

Two boxes over the same dimensions overlap exactly if they share an index
tuple, and their intersection holds exactly the tuples they share.  Membership,
overlap and intersection are recast here as relations between lists of the same
length, which is the form in which later proofs go by induction over the
extents.  Nothing in this module depends on the scalar.
-/

namespace IntervalProgramming

variable {α : Type} [Scalar α]

/-- Whether an index lies in an extent. -/
def Extent.Has (e : Extent) (j : ℕ) : Prop :=
  e.lo ≤ j ∧ j ≤ e.hi

/-- Whether two extents have the same dimension and share an index. -/
def Extent.Meets (e f : Extent) : Prop :=
  e.dim = f.dim ∧ e.lo ≤ f.hi ∧ f.lo ≤ e.hi

theorem Extent.has_lo (e : Extent) : e.Has e.lo :=
  ⟨Nat.le_refl _, e.le⟩

theorem Extent.meets_comm {e f : Extent} : e.Meets f ↔ f.Meets e := by
  constructor
  · rintro ⟨hd, h₁, h₂⟩
    exact ⟨hd.symm, h₂, h₁⟩
  · rintro ⟨hd, h₁, h₂⟩
    exact ⟨hd.symm, h₂, h₁⟩

theorem Interval.meet?_eq_some_iff {i k m : Interval} :
    i.meet? k = some m ↔ m.lo = max i.lo k.lo ∧ m.hi = min i.hi k.hi := by
  unfold Interval.meet?
  split
  · rw [Option.some.injEq]
    constructor
    · rintro rfl
      exact ⟨rfl, rfl⟩
    · rintro ⟨hlo, hhi⟩
      cases m
      simp_all
  · rename_i hempty
    constructor
    · intro h
      cases h
    · rintro ⟨hlo, hhi⟩
      exact absurd (hlo ▸ hhi ▸ m.le) hempty

theorem Interval.meet?_eq_none_iff {i k : Interval} :
    i.meet? k = none ↔ ¬ (i.lo ≤ k.hi ∧ k.lo ≤ i.hi) := by
  have hi := i.le
  have hk := k.le
  unfold Interval.meet?
  split
  · simp only [reduceCtorEq, false_iff, not_not]
    omega
  · simp only [true_iff]
    omega

namespace Box

/-! ## Recast as relations between lists -/

theorem contains_eq_true_iff {b : Box α} {tuple : List ℕ} :
    b.contains tuple = true ↔ List.Forall₂ Extent.Has b.extents tuple := by
  rw [List.forall₂_iff_zip]
  simp only [contains, Bool.and_eq_true, beq_iff_eq, List.all_eq_true,
    Prod.forall, Interval.contains_eq_true_iff, Extent.Has]
  constructor
  · rintro ⟨hlen, hall⟩
    exact ⟨hlen.symm, hall⟩
  · rintro ⟨hlen, hall⟩
    exact ⟨hlen.symm, hall⟩

theorem length_of_contains {b : Box α} {tuple : List ℕ}
    (h : b.contains tuple = true) : tuple.length = b.extents.length :=
  (contains_eq_true_iff.mp h).length_eq.symm

theorem sameDims_eq_true_iff {b c : Box α} :
    b.sameDims c = true ↔ b.dimensions = c.dimensions := by
  simp [sameDims]

theorem length_dimensions (b : Box α) :
    b.dimensions.length = b.extents.length := by
  simp [dimensions]

theorem intersects_eq_true_iff {b c : Box α} :
    b.intersects c = true ↔ List.Forall₂ Extent.Meets b.extents c.extents := by
  simp only [intersects, sameDims, dimensions, Bool.and_eq_true, beq_iff_eq]
  generalize b.extents = es
  generalize c.extents = fs
  induction es generalizing fs with
  | nil => cases fs <;> simp
  | cons e es ih =>
      cases fs with
      | nil => simp
      | cons f fs =>
          simp only [List.map_cons, List.cons.injEq, List.zip_cons_cons,
            List.all_cons, Bool.and_eq_true, Interval.overlaps_eq_true_iff,
            List.forall₂_cons, ← ih fs, Extent.Meets]
          tauto

theorem intersects_comm (b c : Box α) : b.intersects c = c.intersects b := by
  rw [Bool.eq_iff_iff, intersects_eq_true_iff, intersects_eq_true_iff]
  constructor
  · intro h
    exact (h.imp fun _ _ hm => Extent.meets_comm.mp hm).flip
  · intro h
    exact (h.imp fun _ _ hm => Extent.meets_comm.mp hm).flip

theorem dimensions_eq_of_intersects {b c : Box α}
    (h : b.intersects c = true) : b.dimensions = c.dimensions := by
  simp only [intersects, Bool.and_eq_true] at h
  exact sameDims_eq_true_iff.mp h.1

theorem spansFirst_eq_true_iff {b : Box α} {n : ℕ} :
    b.spansFirst n = true ↔ b.dimensions = List.range n := by
  simp [spansFirst]

theorem length_of_spansFirst {b : Box α} {n : ℕ}
    (h : b.spansFirst n = true) : b.extents.length = n := by
  rw [← length_dimensions, spansFirst_eq_true_iff.mp h, List.length_range]

/-! ## Intersection -/

theorem forall₂_has_lows (es : List Extent) :
    List.Forall₂ Extent.Has es (es.map (·.lo)) := by
  rw [List.forall₂_map_right_iff, List.forall₂_same]
  intro e _
  exact e.has_lo

/-- No box is empty: its low corner lies in it. -/
theorem contains_lows (b : Box α) : b.contains b.lows = true :=
  contains_eq_true_iff.mpr (forall₂_has_lows b.extents)

theorem meetExtents?_isSome {es fs : List Extent}
    (hdim : es.map (·.dim) = fs.map (·.dim)) :
    (meetExtents? es fs).isSome = true ↔ List.Forall₂ Extent.Meets es fs := by
  induction es generalizing fs with
  | nil =>
      cases fs with
      | nil => simp [meetExtents?]
      | cons f fs => simp at hdim
  | cons e es ih =>
      cases fs with
      | nil => simp at hdim
      | cons f fs =>
          simp only [List.map_cons, List.cons.injEq] at hdim
          have ih := ih hdim.2
          cases hm : e.meet? f.toInterval with
          | none =>
              have hnot := Interval.meet?_eq_none_iff.mp hm
              simp only [meetExtents?, hm, List.forall₂_cons, Extent.Meets]
              simp only [Option.bind_eq_bind, Option.bind_none, Option.isSome_none,
                Bool.false_eq_true, false_iff]
              rintro ⟨⟨_, hlohi⟩, _⟩
              exact hnot hlohi
          | some i =>
              have hmeet : e.lo ≤ f.hi ∧ f.lo ≤ e.hi := by
                by_contra hnot
                rw [Interval.meet?_eq_none_iff.mpr hnot] at hm
                cases hm
              simp only [meetExtents?, hm, List.forall₂_cons, Extent.Meets, ← ih]
              cases meetExtents? es fs with
              | none => simp
              | some rest => simpa using ⟨hdim.1, hmeet⟩

theorem meetExtents?_spec {es fs gs : List Extent}
    (hdim : es.map (·.dim) = fs.map (·.dim))
    (h : meetExtents? es fs = some gs) :
    gs.map (·.dim) = es.map (·.dim) ∧
      ∀ tuple, List.Forall₂ Extent.Has gs tuple ↔
        List.Forall₂ Extent.Has es tuple ∧ List.Forall₂ Extent.Has fs tuple := by
  induction es generalizing fs gs with
  | nil =>
      cases fs with
      | nil =>
          cases h
          simp
      | cons f fs => simp at hdim
  | cons e es ih =>
      cases fs with
      | nil => simp at hdim
      | cons f fs =>
          simp only [List.map_cons, List.cons.injEq] at hdim
          simp only [meetExtents?, Option.bind_eq_bind, Option.bind_eq_some_iff,
            Option.pure_def, Option.some.injEq] at h
          obtain ⟨i, hi, rest, hrest, rfl⟩ := h
          obtain ⟨hlo, hhi⟩ := Interval.meet?_eq_some_iff.mp hi
          obtain ⟨hdims, hmem⟩ := ih hdim.2 hrest
          refine ⟨by simp [hdims], ?_⟩
          intro tuple
          cases tuple with
          | nil => simp
          | cons j tuple =>
              simp only [List.forall₂_cons, hmem, Extent.Has, hlo, hhi]
              constructor
              · rintro ⟨⟨h₁, h₂⟩, h₃, h₄⟩
                exact ⟨⟨by omega, h₃⟩, by omega, h₄⟩
              · rintro ⟨⟨h₁, h₃⟩, h₂, h₄⟩
                exact ⟨by omega, h₃, h₄⟩

/-- Two boxes have an intersection exactly if they overlap. -/
theorem meetAs?_isSome (b c : Box α) (degree : Degree) :
    (b.meetAs? c degree).isSome = b.intersects c := by
  by_cases hdim : b.dimensions = c.dimensions
  · have hsame : b.sameDims c = true := sameDims_eq_true_iff.mpr hdim
    rw [Bool.eq_iff_iff, intersects_eq_true_iff, ← meetExtents?_isSome hdim]
    simp [meetAs?, hsame]
  · have hsame : b.sameDims c = false := by
      simpa [sameDims] using hdim
    simp [meetAs?, intersects, hsame]

theorem meetAs?_eq_some_iff {b c r : Box α} {degree : Degree} :
    b.meetAs? c degree = some r ↔
      b.dimensions = c.dimensions ∧
        meetExtents? b.extents c.extents = some r.extents ∧
        r.slopes = (match degree with
          | .constant => b.slopes
          | .linear => List.zipWith (· + ·) b.slopes c.slopes) ∧
        r.intercept = b.intercept + c.intercept := by
  unfold meetAs?
  by_cases hdim : b.dimensions = c.dimensions
  · rw [if_pos (sameDims_eq_true_iff.mpr hdim), Option.map_eq_some_iff]
    constructor
    · rintro ⟨extents, hextents, rfl⟩
      exact ⟨hdim, hextents, rfl, rfl⟩
    · rintro ⟨_, hextents, hslopes, hintercept⟩
      refine ⟨r.extents, hextents, ?_⟩
      obtain ⟨extents, slopes, intercept⟩ := r
      cases degree <;> simp_all
  · rw [if_neg (fun h => hdim (sameDims_eq_true_iff.mp h))]
    simp [hdim]

theorem dimensions_meetAs? {b c r : Box α} {degree : Degree}
    (h : b.meetAs? c degree = some r) : r.dimensions = b.dimensions := by
  obtain ⟨hdim, hextents, -, -⟩ := meetAs?_eq_some_iff.mp h
  exact (meetExtents?_spec hdim hextents).1

/-- The intersection of two boxes holds the tuples that both hold. -/
theorem contains_meetAs? {b c r : Box α} {degree : Degree}
    (h : b.meetAs? c degree = some r) (tuple : List ℕ) :
    r.contains tuple = true ↔
      b.contains tuple = true ∧ c.contains tuple = true := by
  obtain ⟨hdim, hextents, -, -⟩ := meetAs?_eq_some_iff.mp h
  simp only [contains_eq_true_iff]
  exact (meetExtents?_spec hdim hextents).2 tuple

theorem length_slopes_meetAs? {b c r : Box α} {degree : Degree}
    (hb : b.slopes.length = b.extents.length)
    (hc : c.slopes.length = c.extents.length)
    (h : b.meetAs? c degree = some r) :
    r.slopes.length = r.extents.length := by
  obtain ⟨hdim, -, hslopes, -⟩ := meetAs?_eq_some_iff.mp h
  have hlen : r.extents.length = b.extents.length := by
    rw [← length_dimensions, ← length_dimensions, dimensions_meetAs? h]
  have hlen' : b.extents.length = c.extents.length := by
    rw [← length_dimensions, ← length_dimensions, hdim]
  rw [hslopes, hlen]
  cases degree with
  | constant => exact hb
  | linear =>
      rw [List.length_zipWith, hb, hc, ← hlen', Nat.min_self]

/-- Boxes over the same dimensions overlap exactly if they share a tuple. -/
theorem intersects_iff_exists {b c : Box α} (hdim : b.dimensions = c.dimensions) :
    b.intersects c = true ↔
      ∃ tuple, b.contains tuple = true ∧ c.contains tuple = true := by
  rw [← meetAs?_isSome b c .linear, Option.isSome_iff_exists]
  constructor
  · rintro ⟨r, hr⟩
    exact ⟨r.lows, (contains_meetAs? hr r.lows).mp (contains_lows r)⟩
  · rintro ⟨tuple, hb, hc⟩
    rw [← Option.isSome_iff_exists, meetAs?_isSome, intersects_eq_true_iff]
    rw [contains_eq_true_iff] at hb hc
    have hdim' : b.extents.map (·.dim) = c.extents.map (·.dim) := hdim
    generalize b.extents = es at hb hdim'
    generalize c.extents = fs at hc hdim'
    induction hb generalizing fs with
    | nil =>
        cases hc
        exact List.Forall₂.nil
    | cons he hes ih =>
        cases hc with
        | cons hf hfs =>
            simp only [List.map_cons, List.cons.injEq] at hdim'
            refine List.Forall₂.cons ⟨hdim'.1, ?_, ?_⟩ (ih _ hfs hdim'.2)
            · exact Nat.le_trans he.1 hf.2
            · exact Nat.le_trans hf.1 he.2

/-! ## The box of a single tuple -/

theorem extents_ofPoint (tuple : List ℕ) :
    (ofPoint tuple : Box α).extents =
      tuple.mapIdx fun dim j => Extent.point dim j := by
  simp only [ofPoint, ofIntervals, flat]
  apply List.ext_getElem
  · simp
  · intro k h₁ h₂
    simp [Extent.point]

theorem dimensions_ofPoint (tuple : List ℕ) :
    (ofPoint tuple : Box α).dimensions = List.range tuple.length := by
  rw [dimensions, extents_ofPoint]
  apply List.ext_getElem
  · simp
  · intro k h₁ h₂
    simp [Extent.point]

theorem contains_ofPoint (tuple other : List ℕ) :
    (ofPoint tuple : Box α).contains other = true ↔ other = tuple := by
  rw [contains_eq_true_iff, extents_ofPoint, List.forall₂_iff_get]
  simp only [List.length_mapIdx, List.get_eq_getElem, List.getElem_mapIdx,
    Extent.Has, Extent.point, Interval.point]
  constructor
  · rintro ⟨hlen, hall⟩
    apply List.ext_getElem hlen.symm
    intro k h₁ h₂
    have h := hall k h₂ h₁
    omega
  · rintro rfl
    exact ⟨rfl, fun _ _ _ => ⟨Nat.le_refl _, Nat.le_refl _⟩⟩

/-- A box over the first dimensions overlaps the box of a tuple exactly if it
holds the tuple. -/
theorem intersects_ofPoint {b : Box α} {n : ℕ} (hb : b.spansFirst n = true)
    (tuple : List ℕ) : b.intersects (ofPoint tuple) = b.contains tuple := by
  have hdim := spansFirst_eq_true_iff.mp hb
  rw [Bool.eq_iff_iff]
  constructor
  · intro h
    have hsame := dimensions_eq_of_intersects h
    obtain ⟨other, hother, hpoint⟩ := (intersects_iff_exists hsame).mp h
    rwa [(contains_ofPoint tuple other).mp hpoint] at hother
  · intro h
    have hsame : b.dimensions = (ofPoint tuple : Box α).dimensions := by
      rw [dimensions_ofPoint, hdim, length_of_contains h, length_of_spansFirst hb]
    exact (intersects_iff_exists hsame).mpr
      ⟨tuple, h, (contains_ofPoint tuple tuple).mpr rfl⟩

end Box

end IntervalProgramming
