import Mathlib.Tactic.Ring
import IntervalProgramming.Layout.Carving
import IntervalProgramming.Proofs.Box.Membership

/-!
# How many boxes hold a tuple

A change to a list of boxes is judged here by one number: how many boxes of
the list hold a given index tuple.  Subtracting boxes from boxes and making
boxes disjoint change this number exactly where they should.  Which tuples a
box holds also decides everything else about its extents, so inclusion is
treated in the same terms.
-/

namespace IntervalProgramming

variable {α : Type} [Scalar α]

/-! ## Tuples of a list of extents -/

/-- Whether every index of one extent lies in another of the same dimension. -/
def Extent.Within (e f : Extent) : Prop :=
  e.dim = f.dim ∧ f.lo ≤ e.lo ∧ e.hi ≤ f.hi

/-- Whether a tuple has one index for each extent and each lies in its
extent. -/
def Extent.hold : List Extent → List ℕ → Bool
  | [], [] => true
  | e :: es, j :: tuple => e.contains j && hold es tuple
  | _, _ => false

@[simp]
theorem Extent.hold_nil_nil : Extent.hold [] [] = true :=
  rfl

@[simp]
theorem Extent.hold_cons_nil (e : Extent) (es : List Extent) :
    Extent.hold (e :: es) [] = false :=
  rfl

@[simp]
theorem Extent.hold_nil_cons (j : ℕ) (tuple : List ℕ) :
    Extent.hold [] (j :: tuple) = false :=
  rfl

@[simp]
theorem Extent.hold_cons_cons (e : Extent) (es : List Extent) (j : ℕ)
    (tuple : List ℕ) :
    Extent.hold (e :: es) (j :: tuple) = (e.contains j && Extent.hold es tuple) :=
  rfl

theorem Extent.hold_eq_true_iff {es : List Extent} {tuple : List ℕ} :
    Extent.hold es tuple = true ↔ List.Forall₂ Extent.Has es tuple := by
  induction es generalizing tuple with
  | nil => cases tuple <;> simp
  | cons e es ih =>
      cases tuple with
      | nil => simp
      | cons j tuple =>
          simp [ih, Interval.contains_eq_true_iff, Extent.Has]

theorem Box.contains_eq_hold (b : Box α) (tuple : List ℕ) :
    b.contains tuple = Extent.hold b.extents tuple := by
  rw [Bool.eq_iff_iff, Box.contains_eq_true_iff, Extent.hold_eq_true_iff]

theorem Extent.countP_hold_map_cons (e : Extent) (parts : List (List Extent))
    (j : ℕ) (tuple : List ℕ) :
    (parts.map (e :: ·)).countP (Extent.hold · (j :: tuple)) =
      (e.contains j).toNat * parts.countP (Extent.hold · tuple) := by
  rw [List.countP_map]
  by_cases hj : e.contains j = true
  · simp [Function.comp_def, hj]
  · simp [Function.comp_def, hj]

/-! ## Differences of extents -/

theorem Box.dim_differenceExtents {es fs part : List Extent}
    (hmeet : List.Forall₂ Extent.Meets es fs)
    (hpart : part ∈ Box.differenceExtents es fs) :
    part.map (·.dim) = es.map (·.dim) := by
  induction hmeet generalizing part with
  | nil => simp [Box.differenceExtents] at hpart
  | @cons e f es fs _ _ ih =>
      simp only [Box.differenceExtents, List.mem_append] at hpart
      rcases hpart with (hpart | hpart) | hpart
      · split at hpart
        · rw [List.mem_singleton] at hpart
          rw [hpart]
          rfl
        · cases hpart
      · split at hpart
        · rw [List.mem_singleton] at hpart
          rw [hpart]
          rfl
        · cases hpart
      · split at hpart
        · cases hpart
        · obtain ⟨rest, hrest, rfl⟩ := List.mem_map.mp hpart
          simp [ih hrest]

theorem Interval.contains_meet? {i k m : Interval} (h : i.meet? k = some m)
    (j : ℕ) : m.contains j = (i.contains j && k.contains j) := by
  obtain ⟨hlo, hhi⟩ := Interval.meet?_eq_some_iff.mp h
  rw [Bool.eq_iff_iff]
  simp only [Bool.and_eq_true, Interval.contains_eq_true_iff, hlo, hhi]
  omega

/-- The slab of a product on one side of another product holds the tuples of
the first whose first index lies on that side. -/
theorem Extent.countP_hold_slab (e : Extent) (side : Prop) [Decidable side]
    {p : Prop} [Decidable p] {slab : p → Extent} {j : ℕ}
    (hslab : ∀ h, (slab h).contains j = true ↔ e.contains j = true ∧ side)
    (hnone : ¬ p → ¬ (e.contains j = true ∧ side)) (es : List Extent)
    (tuple : List ℕ) :
    (if h : p then [slab h :: es] else []).countP (Extent.hold · (j :: tuple)) =
      (e.contains j && decide side && Extent.hold es tuple).toNat := by
  have hside : (e.contains j && decide side) = true ↔ e.contains j = true ∧ side := by
    simp
  split
  · rename_i h
    have heq : (slab h).contains j = (e.contains j && decide side) := by
      rw [Bool.eq_iff_iff, hslab h, hside]
    rw [← heq]
    cases hold : Extent.hold es tuple <;>
      cases hj : (slab h).contains j <;> simp [hj, hold]
  · rename_i h
    have heq : (e.contains j && decide side) = false := by
      rw [Bool.eq_false_iff, ne_eq, hside]
      exact hnone h
    simp [heq]

/-- The parts of a difference hold each tuple of the first product that is not
in the second one, once. -/
theorem Box.countP_differenceExtents {es fs : List Extent}
    (hmeet : List.Forall₂ Extent.Meets es fs) (tuple : List ℕ) :
    (Box.differenceExtents es fs).countP (Extent.hold · tuple) =
      (Extent.hold es tuple && !Extent.hold fs tuple).toNat := by
  induction hmeet generalizing tuple with
  | nil => cases tuple <;> simp [Box.differenceExtents]
  | @cons e f es fs hef hrest ih =>
      obtain ⟨-, hlo, hhi⟩ := id hef
      obtain ⟨i, hi⟩ : ∃ i, e.meet? f.toInterval = some i := by
        rw [← Option.isSome_iff_exists, Option.isSome_iff_ne_none]
        intro hnone
        exact Interval.meet?_eq_none_iff.mp hnone ⟨hlo, hhi⟩
      cases tuple with
      | nil =>
          rw [Extent.hold_cons_nil, Bool.false_and, Bool.toNat_false,
            List.countP_eq_zero]
          intro part hpart
          have hdim := Box.dim_differenceExtents (List.Forall₂.cons hef hrest) hpart
          cases part with
          | nil => simp at hdim
          | cons g gs => simp
      | cons j tuple =>
          simp only [Box.differenceExtents, hi, List.countP_append,
            Extent.countP_hold_map_cons, ih]
          rw [Extent.countP_hold_slab e (j < f.lo),
            Extent.countP_hold_slab e (f.hi < j),
            Interval.contains_meet? hi]
          · have hf : f.contains j = (!decide (j < f.lo) && !decide (f.hi < j)) := by
              rw [Bool.eq_iff_iff]
              simp [Interval.contains_eq_true_iff]
            have hle := f.le
            by_cases hbefore : j < f.lo
            · have hafter : ¬ f.hi < j := by omega
              simp [hf, hbefore, hafter]
            · by_cases hafter : f.hi < j
              · simp [hf, hbefore, hafter]
              · cases hj : e.contains j <;> simp [hf, hbefore, hafter, hj]
          all_goals simp only [Interval.contains_eq_true_iff]; omega

namespace Box

/-! ## Lists of boxes -/

/-- How many boxes of a list hold a tuple. -/
def holders (boxes : List (Box α)) (tuple : List ℕ) : ℕ :=
  boxes.countP (·.contains tuple)

@[simp]
theorem holders_nil (tuple : List ℕ) : holders ([] : List (Box α)) tuple = 0 :=
  rfl

theorem holders_cons (b : Box α) (boxes : List (Box α)) (tuple : List ℕ) :
    holders (b :: boxes) tuple =
      (b.contains tuple).toNat + holders boxes tuple := by
  rw [holders, List.countP_cons, Nat.add_comm]
  cases hb : b.contains tuple <;> simp [holders]

@[simp]
theorem holders_append (boxes others : List (Box α)) (tuple : List ℕ) :
    holders (boxes ++ others) tuple = holders boxes tuple + holders others tuple :=
  List.countP_append

theorem holders_pos_iff {boxes : List (Box α)} {tuple : List ℕ} :
    0 < holders boxes tuple ↔ ∃ b ∈ boxes, b.contains tuple = true :=
  List.countP_pos_iff

/-- If so many boxes hold a tuple as a test is true, then a box holding it makes
the test true. -/
theorem eq_true_of_holders {boxes : List (Box α)} {tuple : List ℕ} {test : Bool}
    (h : holders boxes tuple = test.toNat) {b : Box α} (hb : b ∈ boxes)
    (hbt : b.contains tuple = true) : test = true := by
  have hpos := holders_pos_iff.mpr ⟨b, hb, hbt⟩
  by_contra htest
  rw [Bool.not_eq_true] at htest
  simp [h, htest] at hpos

/-- Only the extents of boxes decide how many of them hold a tuple. -/
theorem holders_eq_countP (boxes : List (Box α)) (tuple : List ℕ) :
    holders boxes tuple =
      (boxes.map (·.extents)).countP (Extent.hold · tuple) := by
  simp only [holders, List.countP_map, Function.comp_def, contains_eq_hold]

/-! ## Inclusion -/

theorem isWithin_eq_true_iff {b c : Box α} :
    b.isWithin c = true ↔ List.Forall₂ Extent.Within b.extents c.extents := by
  simp only [isWithin, sameDims, dimensions, Bool.and_eq_true, beq_iff_eq]
  generalize b.extents = es
  generalize c.extents = fs
  induction es generalizing fs with
  | nil => cases fs <;> simp
  | cons e es ih =>
      cases fs with
      | nil => simp
      | cons f fs =>
          simp only [List.map_cons, List.cons.injEq, List.zip_cons_cons,
            List.all_cons, Bool.and_eq_true, Interval.isWithin_eq_true_iff,
            List.forall₂_cons, ← ih fs, Extent.Within]
          tauto

theorem dimensions_eq_of_isWithin {b c : Box α} (h : b.isWithin c = true) :
    b.dimensions = c.dimensions := by
  simp only [isWithin, Bool.and_eq_true] at h
  exact sameDims_eq_true_iff.mp h.1

/-- A box lies in another one over the same dimensions exactly if the other one
holds all its tuples. -/
theorem isWithin_iff_forall {b c : Box α} (hdim : b.dimensions = c.dimensions) :
    b.isWithin c = true ↔
      ∀ tuple, b.contains tuple = true → c.contains tuple = true := by
  simp only [isWithin_eq_true_iff, contains_eq_true_iff]
  have hdim' : b.extents.map (·.dim) = c.extents.map (·.dim) := hdim
  generalize b.extents = es at hdim'
  generalize c.extents = fs at hdim'
  constructor
  · intro hwithin tuple htuple
    induction hwithin generalizing tuple with
    | nil => exact htuple
    | cons hef _ ih =>
        cases htuple with
        | cons hj hrest =>
            have hhead := And.intro (hef.2.1.trans hj.1) (hj.2.trans hef.2.2)
            simp only [List.map_cons, List.cons.injEq] at hdim'
            exact List.Forall₂.cons hhead (ih hdim'.2 _ hrest)
  · intro hall
    have hlo := hall _ (forall₂_has_lows es)
    have hhi : List.Forall₂ Extent.Has fs (es.map (·.hi)) := by
      apply hall
      rw [List.forall₂_map_right_iff, List.forall₂_same]
      intro e _
      exact ⟨e.le, Nat.le_refl _⟩
    clear hall
    induction es generalizing fs with
    | nil =>
        cases hlo
        exact List.Forall₂.nil
    | cons e es ih =>
        cases hlo with
        | cons hlo hlos =>
            cases hhi with
            | cons hhi hhis =>
                simp only [List.map_cons, List.cons.injEq] at hdim'
                have hhead : e.Within _ := ⟨hdim'.1, hlo.1, hhi.2⟩
                exact List.Forall₂.cons hhead (ih _ hdim'.2 hlos hhis)

theorem contains_of_isWithin {b c : Box α} (h : b.isWithin c = true)
    {tuple : List ℕ} (htuple : b.contains tuple = true) :
    c.contains tuple = true :=
  (isWithin_iff_forall (dimensions_eq_of_isWithin h)).mp h tuple htuple

theorem isWithin_self (b : Box α) : b.isWithin b = true :=
  (isWithin_iff_forall rfl).mpr fun _ htuple => htuple

theorem isWithin_trans {b c r : Box α} (hbc : b.isWithin c = true)
    (hcr : c.isWithin r = true) : b.isWithin r = true := by
  have hdim := (dimensions_eq_of_isWithin hbc).trans (dimensions_eq_of_isWithin hcr)
  rw [isWithin_iff_forall hdim]
  intro tuple htuple
  exact contains_of_isWithin hcr (contains_of_isWithin hbc htuple)

/-- A box overlaps every box it lies in. -/
theorem intersects_of_isWithin {b c : Box α} (h : b.isWithin c = true) :
    b.intersects c = true :=
  (intersects_iff_exists (dimensions_eq_of_isWithin h)).mpr
    ⟨b.lows, b.contains_lows, contains_of_isWithin h b.contains_lows⟩

theorem isWithin_of_extents_eq {b c : Box α} (h : b.extents = c.extents) :
    b.isWithin c = true := by
  have hself := isWithin_self c
  rw [isWithin_eq_true_iff] at hself ⊢
  rwa [h]

/-- Boxes over the same dimensions that hold the same tuples have the same
extents. -/
theorem extents_eq_of_contains_iff {b c : Box α}
    (hdim : b.dimensions = c.dimensions)
    (h : ∀ tuple, b.contains tuple = true ↔ c.contains tuple = true) :
    b.extents = c.extents := by
  have hbc := (isWithin_iff_forall hdim).mpr fun tuple => (h tuple).mp
  have hcb := (isWithin_iff_forall hdim.symm).mpr fun tuple => (h tuple).mpr
  rw [isWithin_eq_true_iff] at hbc hcb
  generalize b.extents = es at hbc hcb
  generalize c.extents = fs at hbc hcb
  induction hbc with
  | nil => rfl
  | @cons e f es fs hef _ ih =>
      cases hcb with
      | cons hfe hrest =>
          have hlo : e.lo = f.lo := Nat.le_antisymm hfe.2.1 hef.2.1
          have hhi : e.hi = f.hi := Nat.le_antisymm hef.2.2 hfe.2.2
          obtain ⟨⟨elo, ehi, _⟩, edim⟩ := e
          obtain ⟨⟨flo, fhi, _⟩, fdim⟩ := f
          obtain rfl : edim = fdim := hef.1
          obtain rfl : elo = flo := hlo
          obtain rfl : ehi = fhi := hhi
          rw [ih hrest]

/-- A box within a box of a single tuple has the same extents. -/
theorem extents_eq_of_isWithin_point {b p : Box α} (hpoint : p.isPoint = true)
    (h : b.isWithin p = true) : b.extents = p.extents := by
  rw [isWithin_eq_true_iff] at h
  simp only [isPoint, List.all_eq_true, Interval.isPoint, beq_iff_eq] at hpoint
  generalize b.extents = es at h
  generalize p.extents = fs at h hpoint
  induction h with
  | nil => rfl
  | @cons e f es fs hef _ ih =>
      obtain ⟨hf, hfs⟩ := List.forall_mem_cons.mp hpoint
      rw [ih hfs]
      obtain ⟨hdim, hlo, hhi⟩ := hef
      have hle := e.le
      have hlo' : e.lo = f.lo := by omega
      have hhi' : e.hi = f.hi := by omega
      obtain ⟨⟨elo, ehi, _⟩, edim⟩ := e
      obtain ⟨⟨flo, fhi, _⟩, fdim⟩ := f
      simp_all

theorem intersects_of_extents_eq {b c : Box α} (h : b.extents = c.extents)
    (q : Box α) : b.intersects q = c.intersects q := by
  simp only [intersects, sameDims, dimensions, h]

/-- A box of a single tuple lies in every box it overlaps. -/
theorem isWithin_of_intersects_point {p b : Box α} (hpoint : p.isPoint = true)
    (h : p.intersects b = true) : p.isWithin b = true := by
  rw [intersects_eq_true_iff] at h
  rw [isWithin_eq_true_iff]
  simp only [isPoint, List.all_eq_true, Interval.isPoint, beq_iff_eq] at hpoint
  generalize p.extents = es at h hpoint
  generalize b.extents = fs at h
  induction h with
  | nil => exact List.Forall₂.nil
  | cons hef _ ih =>
      obtain ⟨he, hes⟩ := List.forall_mem_cons.mp hpoint
      obtain ⟨hdim, hlo, hhi⟩ := hef
      exact List.Forall₂.cons ⟨hdim, he ▸ hhi, he ▸ hlo⟩ (ih hes)

/-- Boxes that hold no common tuple do not overlap. -/
theorem intersects_eq_false {b c : Box α}
    (h : ∀ tuple, b.contains tuple = true → c.contains tuple = false) :
    b.intersects c = false := by
  rw [Bool.eq_false_iff]
  intro hmeet
  have hdim := dimensions_eq_of_intersects hmeet
  obtain ⟨tuple, hb, hc⟩ := (intersects_iff_exists hdim).mp hmeet
  rw [h tuple hb] at hc
  cases hc

/-- A box clear of another one is clear of all boxes within that one. -/
theorem intersects_eq_false_of_isWithin {b c part : Box α}
    (hwithin : part.isWithin c = true) (hclear : b.intersects c = false) :
    b.intersects part = false := by
  rw [Bool.eq_false_iff]
  intro hmeet
  have hdim := dimensions_eq_of_intersects hmeet
  obtain ⟨tuple, hb, hpart⟩ := (intersects_iff_exists hdim).mp hmeet
  have hdim' := hdim.trans (dimensions_eq_of_isWithin hwithin)
  have hmeet' := (intersects_iff_exists hdim').mpr
    ⟨tuple, hb, contains_of_isWithin hwithin hpart⟩
  rw [hclear] at hmeet'
  cases hmeet'

/-! ## Differences -/

theorem subtract_of_clear {b c : Box α} (h : b.intersects c = false) :
    b.subtract c = [b] := by
  rw [subtract, h, if_neg Bool.false_ne_true]

theorem dimensions_subtract {b c part : Box α} (hpart : part ∈ b.subtract c) :
    part.dimensions = b.dimensions := by
  unfold subtract at hpart
  split at hpart
  · rename_i hmeet
    obtain ⟨extents, hextents, rfl⟩ := List.mem_map.mp hpart
    exact dim_differenceExtents (intersects_eq_true_iff.mp hmeet) hextents
  · rw [List.mem_singleton] at hpart
    rw [hpart]

/-- The parts of a box outside another one hold each tuple there once. -/
theorem holders_subtract {b c : Box α} (hdim : b.dimensions = c.dimensions)
    (tuple : List ℕ) :
    holders (b.subtract c) tuple = (b.contains tuple && !c.contains tuple).toNat := by
  unfold subtract
  split
  · rename_i hmeet
    rw [holders_eq_countP, List.map_map, contains_eq_hold, contains_eq_hold,
      ← countP_differenceExtents (intersects_eq_true_iff.mp hmeet)]
    simp [Function.comp_def]
  · rename_i hmeet
    rw [intersects_iff_exists hdim] at hmeet
    rw [holders_cons, holders_nil, Nat.add_zero]
    cases hb : b.contains tuple with
    | false => simp
    | true =>
        have hc : c.contains tuple = false := by
          rw [Bool.eq_false_iff]
          intro hc
          exact hmeet ⟨tuple, hb, hc⟩
        simp [hc]

/-- The parts of a box outside another one lie in the box. -/
theorem isWithin_of_mem_subtract {b c part : Box α}
    (hpart : part ∈ b.subtract c) : part.isWithin b = true := by
  rw [isWithin_iff_forall (dimensions_subtract hpart)]
  intro tuple htuple
  by_cases hmeet : b.intersects c = true
  · have hholders := holders_subtract (dimensions_eq_of_intersects hmeet) tuple
    have hboth := eq_true_of_holders hholders hpart htuple
    rw [Bool.and_eq_true] at hboth
    exact hboth.1
  · rw [Bool.not_eq_true] at hmeet
    rw [subtract_of_clear hmeet, List.mem_singleton] at hpart
    rwa [← hpart]

/-- The parts of a box outside another one do not overlap that one. -/
theorem intersects_eq_false_of_mem_subtract {b c part : Box α}
    (hpart : part ∈ b.subtract c) : part.intersects c = false := by
  by_cases hmeet : b.intersects c = true
  · have hholders := holders_subtract (dimensions_eq_of_intersects hmeet)
    apply intersects_eq_false
    intro tuple htuple
    have hboth := eq_true_of_holders (hholders tuple) hpart htuple
    rw [Bool.and_eq_true, Bool.not_eq_true'] at hboth
    exact hboth.2
  · rw [Bool.not_eq_true] at hmeet
    rw [subtract_of_clear hmeet, List.mem_singleton] at hpart
    rwa [hpart]

/-- A box within another one leaves nothing outside it. -/
theorem subtract_eq_nil_of_isWithin {b c : Box α} (h : b.isWithin c = true) :
    b.subtract c = [] := by
  rw [List.eq_nil_iff_forall_not_mem]
  intro part hpart
  have hmeet := intersects_of_isWithin
    (isWithin_trans (isWithin_of_mem_subtract hpart) h)
  rw [intersects_eq_false_of_mem_subtract hpart] at hmeet
  cases hmeet

theorem exists_isWithin_of_mem_subtractFrom {boxes : List (Box α)}
    {region part : Box α} (hpart : part ∈ subtractFrom boxes region) :
    ∃ b ∈ boxes, part.isWithin b = true := by
  obtain ⟨b, hb, hpart⟩ := List.mem_flatMap.mp hpart
  exact ⟨b, hb, isWithin_of_mem_subtract hpart⟩

theorem holders_subtractFrom {boxes : List (Box α)} {region : Box α}
    (hdim : ∀ b ∈ boxes, b.dimensions = region.dimensions) (tuple : List ℕ) :
    holders (subtractFrom boxes region) tuple =
      (!region.contains tuple).toNat * holders boxes tuple := by
  induction boxes with
  | nil => rfl
  | cons b boxes ih =>
      obtain ⟨hb, hboxes⟩ := List.forall_mem_cons.mp hdim
      rw [subtractFrom, List.flatMap_cons, holders_append, holders_subtract hb,
        ← subtractFrom, ih hboxes, holders_cons]
      cases region.contains tuple <;> cases b.contains tuple <;> simp

end Box

end IntervalProgramming
