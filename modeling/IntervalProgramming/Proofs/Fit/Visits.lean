import IntervalProgramming.Fit.Samples
import IntervalProgramming.Proofs.Box.Membership

/-!
# Visits

An objective is evaluated at the continuous points behind the tuples of a box.
Along the dimensions that the box does not constrain the points stay at the low
value, whatever was visited before, so each value depends on its tuple only.
-/

namespace IntervalProgramming

variable {α : Type} [Scalar α]

/-! ## The point behind a tuple of a box -/

/-- The index that a tuple has along dimension `k`, if one of the extents runs
along it. -/
def Extent.indexAlong (k : ℕ) : List Extent → List ℕ → Option ℕ
  | e :: es, j :: tuple => if e.dim = k then some j else indexAlong k es tuple
  | _, _ => none

theorem Extent.indexAlong_eq_none {k : ℕ} {es : List Extent}
    (h : k ∉ es.map (·.dim)) (tuple : List ℕ) : indexAlong k es tuple = none := by
  induction es generalizing tuple with
  | nil => rfl
  | cons e es ih =>
      rw [List.map_cons, List.mem_cons, not_or] at h
      cases tuple with
      | nil => rfl
      | cons j tuple => rw [indexAlong, if_neg (Ne.symm h.1), ih h.2]

/-- The continuous point behind a tuple over some dimensions: the value of its
index along each of them, and the low value along the others. -/
def Domain.pointOn (d : Domain α) (es : List Extent) (tuple : List ℕ) : List α :=
  d.vars.mapIdx fun k v =>
    match Extent.indexAlong k es tuple with
    | some j => v.value j
    | none => v.low

/-- A box over some dimensions of a domain, in order, that lies in the domain
along each of them. -/
structure Domain.Encloses (d : Domain α) (b : Box α) : Prop where
  increasing : b.dimensions.Pairwise (· < ·)
  inside : ∀ e ∈ b.extents, e.hi < d.pointCount e.dim

namespace Domain

variable {d : Domain α} {es : List Extent} {tuple : List ℕ} {b : Box α}

theorem Encloses.nodup (hb : d.Encloses b) : (b.extents.map (·.dim)).Nodup :=
  hb.increasing.imp Nat.ne_of_lt

/-- Every index of a tuple has a value along the dimension of its extent. -/
def HasValues (d : Domain α) (es : List Extent) (tuple : List ℕ) : Prop :=
  List.Forall₂ (fun e j => (d.valueAt? e.dim j).isSome = true) es tuple

theorem Encloses.hasValues (hb : d.Encloses b) (htuple : b.contains tuple = true) :
    d.HasValues b.extents tuple := by
  obtain ⟨hlen, hpairs⟩ := List.forall₂_iff_zip.mp (Box.contains_eq_true_iff.mp htuple)
  refine List.forall₂_iff_zip.mpr ⟨hlen, fun {e j} hmem => ?_⟩
  have hlt := hb.inside e (List.of_mem_zip hmem).1
  have hle : j ≤ e.hi := (hpairs hmem).2
  unfold pointCount at hlt
  unfold valueAt?
  cases hv : d.var? e.dim with
  | none =>
      rw [hv] at hlt
      exact absurd hlt (Nat.not_lt_zero _)
  | some v =>
      rw [hv] at hlt
      have hj : j < v.count := Nat.lt_of_le_of_lt hle hlt
      simp only [if_pos hj, Option.isSome_some]

theorem valueAt?_eq_some {k j : ℕ} (h : (d.valueAt? k j).isSome = true) :
    d.valueAt? k j = (d.vars[k]?).map (·.value j) := by
  unfold valueAt? var? at h ⊢
  cases hv : d.vars[k]? with
  | none => rfl
  | some v =>
      rw [hv] at h
      dsimp only at h ⊢
      split
      · rfl
      · rename_i hj
        rw [if_neg hj] at h
        cases h

theorem HasValues.indexAlong_ne_none (h : d.HasValues es tuple) {k : ℕ}
    (hk : k ∈ es.map (·.dim)) : Extent.indexAlong k es tuple ≠ none := by
  induction h with
  | nil => cases hk
  | @cons e j es tuple _ _ ih =>
      rw [Extent.indexAlong]
      by_cases hdim : e.dim = k
      · rw [if_pos hdim]
        exact Option.some_ne_none j
      · rw [if_neg hdim]
        exact ih ((List.mem_cons.mp hk).resolve_left (Ne.symm hdim))

/-- A continuous point that is at the low value off the dimensions of some
extents. -/
structure AtRest (d : Domain α) (es : List Extent) (point : List α) : Prop where
  length_eq : point.length = d.size
  low : ∀ k, k ∉ es.map (·.dim) → point[k]? = d.lowCorner[k]?

theorem atRest_lowCorner (d : Domain α) (es : List Extent) : d.AtRest es d.lowCorner where
  length_eq := List.length_map _
  low _ _ := rfl

theorem atRest_pointOn (d : Domain α) (es : List Extent) (tuple : List ℕ) :
    d.AtRest es (d.pointOn es tuple) where
  length_eq := List.length_mapIdx
  low k hk := by
    rw [pointOn, List.getElem?_mapIdx, Extent.indexAlong_eq_none hk, lowCorner,
      List.getElem?_map]

/-- Moving sets the coordinates along the extents and leaves the others. -/
theorem getElem?_moveTo (hdims : (es.map (·.dim)).Nodup) (hvalues : d.HasValues es tuple)
    {point : List α} (hlen : point.length = d.size) (k : ℕ) :
    (d.moveTo es tuple point)[k]? =
      match Extent.indexAlong k es tuple with
      | some j => (d.vars[k]?).map (·.value j)
      | none => point[k]? := by
  induction hvalues generalizing point with
  | nil => rfl
  | @cons e j es tuple hvalue _ ih =>
      rw [List.map_cons, List.nodup_cons] at hdims
      obtain ⟨x, hx⟩ := Option.isSome_iff_exists.mp hvalue
      have hmove : d.moveTo (e :: es) (j :: tuple) point =
          d.moveTo es tuple (point.set e.dim x) := by
        simp only [moveTo, List.zip_cons_cons, List.foldl_cons, hx]
      rw [hmove, ih hdims.2 (by rw [List.length_set, hlen]), Extent.indexAlong]
      by_cases hk : e.dim = k
      · subst hk
        rw [valueAt?_eq_some hvalue] at hx
        obtain ⟨v, hv, rfl⟩ := Option.map_eq_some_iff.mp hx
        have hlt : e.dim < point.length := by
          rw [hlen]
          exact (List.getElem?_eq_some_iff.mp hv).1
        rw [Extent.indexAlong_eq_none hdims.1, if_pos rfl]
        dsimp only
        rw [List.getElem?_set_self hlt, hx]
      · rw [if_neg hk]
        cases Extent.indexAlong k es tuple with
        | none => exact List.getElem?_set_ne hk
        | some _ => rfl

/-- From a point at rest a tuple is reached at the continuous point behind it. -/
theorem AtRest.moveTo {point : List α} (h : d.AtRest es point)
    (hdims : (es.map (·.dim)).Nodup) (hvalues : d.HasValues es tuple) :
    d.moveTo es tuple point = d.pointOn es tuple := by
  apply List.ext_getElem?
  intro k
  rw [getElem?_moveTo hdims hvalues h.length_eq, pointOn, List.getElem?_mapIdx]
  cases hindex : Extent.indexAlong k es tuple with
  | some j => rfl
  | none =>
      by_cases hk : k ∈ es.map (·.dim)
      · exact absurd hindex (hvalues.indexAlong_ne_none hk)
      · rw [h.low k hk, lowCorner, List.getElem?_map]

end Domain

namespace Objective

/-- The value of an objective at the continuous point behind a tuple. -/
def valueOn (o : Objective α) (es : List Extent) (tuple : List ℕ) : α :=
  o.value (o.domain.pointOn es tuple)

/-- One evaluation of a visit: the values so far, the last one first, and the
continuous point. -/
def look (o : Objective α) (es : List Extent) (seen : List α × List α)
    (tuple : List ℕ) : List α × List α :=
  let here := o.domain.moveTo es tuple seen.2
  (o.value here :: seen.1, here)

theorem visit_eq_foldl (o : Objective α) (es : List Extent) (tuples : List (List ℕ))
    (start : List α) :
    o.visit es tuples start =
      ((tuples.foldl (o.look es) ([], start)).1.reverse,
        (tuples.foldl (o.look es) ([], start)).2) :=
  rfl

variable {o : Objective α} {es : List Extent} {tuples : List (List ℕ)} {start : List α}

theorem look_eq (hdims : (es.map (·.dim)).Nodup) {tuple : List ℕ}
    (hvalues : o.domain.HasValues es tuple) (hstart : o.domain.AtRest es start)
    (values : List α) :
    o.look es (values, start) tuple =
      (o.valueOn es tuple :: values, o.domain.pointOn es tuple) := by
  have hhere : o.domain.moveTo es tuple start = o.domain.pointOn es tuple :=
    hstart.moveTo hdims hvalues
  simp only [look, hhere, valueOn]

theorem foldl_look (hdims : (es.map (·.dim)).Nodup)
    (hvalues : ∀ tuple ∈ tuples, o.domain.HasValues es tuple)
    (hstart : o.domain.AtRest es start) (values : List α) :
    ∃ last, tuples.foldl (o.look es) (values, start) =
        ((tuples.map (o.valueOn es)).reverse ++ values, last) ∧
      o.domain.AtRest es last := by
  induction tuples generalizing start values with
  | nil => exact ⟨start, rfl, hstart⟩
  | cons tuple tuples ih =>
      obtain ⟨htuple, htuples⟩ := List.forall_mem_cons.mp hvalues
      obtain ⟨last, hlast, hrest⟩ := ih htuples (o.domain.atRest_pointOn es tuple)
        (o.valueOn es tuple :: values)
      refine ⟨last, ?_, hrest⟩
      rw [List.foldl_cons, look_eq hdims htuple hstart, hlast, List.map_cons,
        List.reverse_cons, List.append_assoc, List.singleton_append]

/-- Wherever a visit starts at rest, it finds the value behind each tuple, and
it ends at rest. -/
theorem visit_eq (hdims : (es.map (·.dim)).Nodup)
    (hvalues : ∀ tuple ∈ tuples, o.domain.HasValues es tuple)
    (hstart : o.domain.AtRest es start) :
    ∃ last, o.visit es tuples start = (tuples.map (o.valueOn es), last) ∧
      o.domain.AtRest es last := by
  obtain ⟨last, hlast, hrest⟩ := foldl_look hdims hvalues hstart []
  refine ⟨last, ?_, hrest⟩
  rw [visit_eq_foldl, hlast, List.append_nil, List.reverse_reverse]

end Objective

end IntervalProgramming
