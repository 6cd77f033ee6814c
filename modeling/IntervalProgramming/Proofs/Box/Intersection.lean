import IntervalProgramming.Proofs.Box.Holders
import IntervalProgramming.Proofs.Box.Value

/-!
# Intersections of boxes

The intersection of two boxes holds the tuples that both hold and takes the sum
of their values.  It is determined by this, so that it does not matter in which
order several boxes are met with one: there is no intersection for any order, or
the same one for every order.
-/

namespace IntervalProgramming

namespace Box

variable {α : Type} [Scalar α]

/-- A box as its constructors make it: the dimensions go up strictly, and there is
one slope for each extent. -/
structure WellFormed (b : Box α) : Prop where
  increasing : b.dimensions.Pairwise (· < ·)
  modelled : b.slopes.length = b.extents.length

/-- The intersection of a box with each box of a list in turn, read as given. -/
def meetAll? (start : Box α) (parts : List (Box α × Degree)) : Option (Box α) :=
  parts.foldlM (fun region part => region.meetAs? part.1 part.2) start

theorem WellFormed.meetAs? {b c r : Box α} {degree : Degree} (hb : b.WellFormed)
    (hc : c.WellFormed) (h : b.meetAs? c degree = some r) : r.WellFormed where
  increasing := by
    rw [dimensions_meetAs? h]
    exact hb.increasing
  modelled := length_slopes_meetAs? hb.modelled hc.modelled h

/-- Boxes over the same dimensions that share a tuple have an intersection. -/
theorem exists_meetAs? {b c : Box α} {tuple : List ℕ}
    (hdim : b.dimensions = c.dimensions) (hb : b.contains tuple = true)
    (hc : c.contains tuple = true) (degree : Degree) :
    ∃ r, b.meetAs? c degree = some r := by
  rw [← Option.isSome_iff_exists, meetAs?_isSome, intersects_iff_exists hdim]
  exact ⟨tuple, hb, hc⟩

/-! ## The order of intersections -/

theorem zipWith_add_right_comm (xs ys zs : List ℚ) :
    List.zipWith (· + ·) (List.zipWith (· + ·) xs ys) zs =
      List.zipWith (· + ·) (List.zipWith (· + ·) xs zs) ys := by
  induction xs generalizing ys zs with
  | nil => rfl
  | cons x xs ih =>
      cases ys with
      | nil => cases zs <;> rfl
      | cons y ys =>
          cases zs with
          | nil => rfl
          | cons z zs =>
              simp only [List.zipWith_cons_cons, ih ys zs, add_right_comm]

variable {a b c x r s : Box ℚ} {g h : Degree}

/-- Intersections with two boxes in either order are the same: they hold the same
tuples, and the models are the same sums. -/
theorem eq_of_meetAs?_meetAs? {y : Box ℚ} (hx : a.meetAs? b g = some x)
    (hr : x.meetAs? c h = some r) (hy : a.meetAs? c h = some y)
    (hs : y.meetAs? b g = some s) : s = r := by
  obtain ⟨-, -, hxslopes, hxintercept⟩ := meetAs?_eq_some_iff.mp hx
  obtain ⟨-, -, hrslopes, hrintercept⟩ := meetAs?_eq_some_iff.mp hr
  obtain ⟨-, -, hyslopes, hyintercept⟩ := meetAs?_eq_some_iff.mp hy
  obtain ⟨-, -, hsslopes, hsintercept⟩ := meetAs?_eq_some_iff.mp hs
  have hdim : s.dimensions = r.dimensions := by
    rw [dimensions_meetAs? hs, dimensions_meetAs? hy, dimensions_meetAs? hr,
      dimensions_meetAs? hx]
  -- The extents follow from the tuples, so no interval has to be computed.
  have hextents : s.extents = r.extents := by
    refine extents_eq_of_contains_iff hdim fun tuple => ?_
    rw [contains_meetAs? hs, contains_meetAs? hy, contains_meetAs? hr, contains_meetAs? hx]
    exact and_right_comm
  have hslopes : s.slopes = r.slopes := by
    rw [hsslopes, hyslopes, hrslopes, hxslopes]
    cases g with
    | constant => rfl
    | linear =>
        cases h with
        | constant => rfl
        | linear => exact zipWith_add_right_comm a.slopes c.slopes b.slopes
  have hintercept : s.intercept = r.intercept := by
    rw [hsintercept, hyintercept, hrintercept, hxintercept]
    exact add_right_comm a.intercept c.intercept b.intercept
  obtain ⟨_, _, _⟩ := s
  obtain ⟨_, _, _⟩ := r
  exact (Box.mk.injEq ..).mpr ⟨hextents, hslopes, hintercept⟩

theorem exists_meetAs?_meetAs? (hx : a.meetAs? b g = some x)
    (hr : x.meetAs? c h = some r) :
    ∃ y, a.meetAs? c h = some y ∧ y.meetAs? b g = some r := by
  obtain ⟨hab, -⟩ := meetAs?_eq_some_iff.mp hx
  obtain ⟨hxc, -⟩ := meetAs?_eq_some_iff.mp hr
  obtain ⟨hxl, hcl⟩ := (contains_meetAs? hr r.lows).mp r.contains_lows
  obtain ⟨hal, hbl⟩ := (contains_meetAs? hx r.lows).mp hxl
  have hac : a.dimensions = c.dimensions := by rw [← dimensions_meetAs? hx, hxc]
  obtain ⟨y, hy⟩ := exists_meetAs? hac hal hcl h
  have hyb : y.dimensions = b.dimensions := by rw [dimensions_meetAs? hy, hab]
  have hyl := (contains_meetAs? hy r.lows).mpr ⟨hal, hcl⟩
  obtain ⟨s, hs⟩ := exists_meetAs? hyb hyl hbl g
  obtain rfl := eq_of_meetAs?_meetAs? hx hr hy hs
  exact ⟨y, hy, hs⟩

theorem meetAs?_right_comm (a b c : Box ℚ) (g h : Degree) :
    (a.meetAs? b g).bind (·.meetAs? c h) = (a.meetAs? c h).bind (·.meetAs? b g) := by
  ext r
  simp only [Option.bind_eq_some_iff]
  constructor
  · rintro ⟨x, hx, hr⟩
    exact exists_meetAs?_meetAs? hx hr
  · rintro ⟨y, hy, hr⟩
    exact exists_meetAs?_meetAs? hy hr

/-- The order in which boxes are met with a box makes no difference. -/
theorem meetAll?_perm {parts parts' : List (Box ℚ × Degree)} (h : parts.Perm parts')
    (start : Box ℚ) : start.meetAll? parts = start.meetAll? parts' := by
  induction h generalizing start with
  | nil => rfl
  | cons part _ ih =>
      simp only [meetAll?, List.foldlM_cons]
      exact congrArg _ (funext ih)
  | swap part part' parts =>
      simp only [meetAll?, List.foldlM_cons, ← bind_assoc]
      exact congrArg (· >>= _) (meetAs?_right_comm start part'.1 part.1 part'.2 part.2)
  | trans _ _ ih ih' => exact (ih start).trans (ih' start)

/-! ## Several intersections -/

/-- A well-formed box that holds the tuples common to a box and the boxes of a list,
and takes the sum of their values. -/
structure IsMeet (start : Box ℚ) (parts : List (Box ℚ × Degree)) (r : Box ℚ) : Prop where
  wellFormed : r.WellFormed
  contains : ∀ tuple, r.contains tuple = true ↔
    start.contains tuple = true ∧ ∀ part ∈ parts, part.1.contains tuple = true
  eval : ∀ tuple, r.eval tuple =
    start.eval tuple + (parts.map fun part => part.1.evalAs tuple part.2).sum

theorem isMeet_nil {start : Box ℚ} (hstart : start.WellFormed) : IsMeet start [] start where
  wellFormed := hstart
  contains _ := (and_iff_left nofun).symm
  eval _ := (add_zero _).symm

theorem IsMeet.cons {start : Box ℚ} {part : Box ℚ × Degree} {parts : List (Box ℚ × Degree)}
    (hstart : start.WellFormed) (hpart : part.1.WellFormed)
    (hx : start.meetAs? part.1 part.2 = some x) (h : IsMeet x parts r) :
    IsMeet start (part :: parts) r where
  wellFormed := h.wellFormed
  contains tuple := by
    rw [h.contains, contains_meetAs? hx, List.forall_mem_cons, and_assoc]
  eval tuple := by
    rw [h.eval, eval_meetAs? hstart.modelled hpart.modelled hx, List.map_cons,
      List.sum_cons, add_assoc]

theorem isMeet_meetAll? {start : Box ℚ} {parts : List (Box ℚ × Degree)}
    (hstart : start.WellFormed) (hparts : ∀ part ∈ parts, part.1.WellFormed)
    (h : start.meetAll? parts = some r) : IsMeet start parts r := by
  induction parts generalizing start with
  | nil =>
      obtain rfl := Option.some.inj h
      exact isMeet_nil hstart
  | cons part parts ih =>
      obtain ⟨hpart, hparts⟩ := List.forall_mem_cons.mp hparts
      rw [meetAll?, List.foldlM_cons, Option.bind_eq_bind, Option.bind_eq_some_iff] at h
      obtain ⟨x, hx, h⟩ := h
      exact (ih (hstart.meetAs? hpart hx) hparts h).cons hstart hpart hx

/-- The intersection of two boxes is their geometric meet with the sum of their
models.  It exists exactly if the boxes overlap, which is to say that they have the
same dimensions and share a tuple; it is well formed, holds the tuples that both
boxes hold and takes the sum of their values.  So the intersection of a box with
several others holds the tuples that all of them hold and takes the sum of all
their values, and it is the same, or absent, for every order of them. -/
theorem meet_sums_models {a b : Box ℚ} (ha : a.WellFormed) (hb : b.WellFormed)
    (degree : Degree) :
    ((a.meetAs? b degree).isSome = true ↔ a.intersects b = true) ∧
    (a.intersects b = true ↔
      a.dimensions = b.dimensions ∧
        ∃ tuple, a.contains tuple = true ∧ b.contains tuple = true) ∧
    (∀ r, a.meetAs? b degree = some r →
      r.WellFormed ∧
      (∀ tuple, r.contains tuple = true ↔
        a.contains tuple = true ∧ b.contains tuple = true) ∧
      ∀ tuple, r.eval tuple = a.eval tuple + b.evalAs tuple degree) ∧
    ∀ parts : List (Box ℚ × Degree),
      (∀ parts', parts.Perm parts' → a.meetAll? parts = a.meetAll? parts') ∧
      ((∀ part ∈ parts, part.1.WellFormed) →
        ∀ r, a.meetAll? parts = some r → IsMeet a parts r) := by
  refine ⟨?_, ⟨fun h => ?_, fun h => ?_⟩, fun r hr => ?_, fun parts => ⟨?_, ?_⟩⟩
  · rw [meetAs?_isSome]
  · have hdim := dimensions_eq_of_intersects h
    exact ⟨hdim, (intersects_iff_exists hdim).mp h⟩
  · exact (intersects_iff_exists h.1).mpr h.2
  · exact ⟨ha.meetAs? hb hr, contains_meetAs? hr, eval_meetAs? ha.modelled hb.modelled hr⟩
  · exact fun parts' hperm => meetAll?_perm hperm a
  · exact fun hparts r hr => isMeet_meetAll? ha hparts hr

/-- The box of the indices from 2 to 6 of one dimension with the value 7 - j, and the
box of those from 4 to 7 with the value 3 j - 16. -/
def slopingPair : Box ℚ × Box ℚ :=
  ({ extents := [{ lo := 2, hi := 6, dim := 0 }], slopes := [-1], intercept := 7 },
    { extents := [{ lo := 4, hi := 7, dim := 0 }], slopes := [3], intercept := -16 })

/-- The two boxes share the index 6, where their values sum to 3. -/
theorem meet_sums_models_slopingPair :
    ∃ r, slopingPair.1.meetAs? slopingPair.2 .linear = some r ∧
      r.contains [6] = true ∧ r.eval [6] = 3 := by
  have hfirst : slopingPair.1.WellFormed := ⟨List.pairwise_singleton _ _, rfl⟩
  have hsecond : slopingPair.2.WellFormed := ⟨List.pairwise_singleton _ _, rfl⟩
  obtain ⟨hsome, hshared, hmeet, -⟩ := meet_sums_models hfirst hsecond .linear
  have hmid : slopingPair.1.contains [6] = true ∧ slopingPair.2.contains [6] = true := by
    decide
  obtain ⟨r, hr⟩ := Option.isSome_iff_exists.mp
    (hsome.mpr (hshared.mpr ⟨rfl, [6], hmid.1, hmid.2⟩))
  obtain ⟨-, hcontains, heval⟩ := hmeet r hr
  refine ⟨r, hr, (hcontains [6]).mpr hmid, ?_⟩
  have hvalues : slopingPair.1.eval [6] = 1 ∧ slopingPair.2.eval [6] = 2 := by
    decide +kernel
  rw [heval, Box.evalAs, hvalues.1, hvalues.2]
  norm_num

end Box

end IntervalProgramming
