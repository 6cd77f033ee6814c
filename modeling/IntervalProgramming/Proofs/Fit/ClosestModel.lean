import IntervalProgramming.Proofs.Box.Value
import IntervalProgramming.Proofs.Fit.Lattice
import IntervalProgramming.Proofs.Scalar.Sums

/-!
# Closest linear models

A linear model of a box is closest to values at some tuples if no other one has
a smaller sum of squared distances from them.  Along an extent of a single index
a slope could not be told from the intercept, so models have none there.

Two such models that agree on a sample lattice agree everywhere, because the
lattice holds both ends of each extent.  So the model closest to the values of a
linear model is that model.
-/

namespace IntervalProgramming

/-! ## Models as slopes and an intercept -/

/-- Slopes for extents: one for each, which is zero along a single index. -/
def Extent.SlopesFor (es : List Extent) (slopes : List ℚ) : Prop :=
  List.Forall₂ (fun e s => e.lo = e.hi → s = 0) es slopes

/-- The value of the linear model of some slopes and an intercept. -/
def modelValue (m : List ℚ × ℚ) (tuple : List ℕ) : ℚ :=
  m.2 + slopeSum m.1 tuple

/-- The sum of the squared distances of a linear model from values at tuples. -/
def squaredMiss (tuples : List (List ℕ)) (y : List ℕ → ℚ) (m : List ℚ × ℚ) : ℚ :=
  sumOver tuples fun tuple => (modelValue m tuple - y tuple) ^ 2

/-- A linear model for some extents that no other is closer than to values at
tuples. -/
structure Closest (es : List Extent) (tuples : List (List ℕ)) (y : List ℕ → ℚ)
    (m : List ℚ × ℚ) : Prop where
  slopesFor : Extent.SlopesFor es m.1
  least : ∀ other : List ℚ × ℚ, Extent.SlopesFor es other.1 →
    squaredMiss tuples y m ≤ squaredMiss tuples y other

variable {es : List Extent} {n : ℕ}

/-- Linear models that agree at all samples are the same. -/
theorem Extent.SlopesFor.unique (hn : 2 ≤ n) {ss ws : List ℚ} {a c : ℚ}
    (hss : SlopesFor es ss) (hws : SlopesFor es ws)
    (h : ∀ tuple, List.Forall₂ (fun e j => j ∈ e.samples n) es tuple →
      modelValue (ss, a) tuple = modelValue (ws, c) tuple) :
    ss = ws ∧ a = c := by
  induction hss generalizing ws a c with
  | nil =>
      cases hws
      exact ⟨rfl, add_right_cancel (h [] List.Forall₂.nil)⟩
  | @cons e s es ss hs _ ih =>
      cases hws with
      | @cons _ w _ ws hw hws =>
      have hlo := fun tuple htuple =>
        h (e.lo :: tuple) (List.Forall₂.cons (e.lo_mem_samples hn) htuple)
      have hhi := fun tuple htuple =>
        h (e.hi :: tuple) (List.Forall₂.cons (e.hi_mem_samples hn) htuple)
      simp only [modelValue, slopeSum] at hlo hhi
      have hsw : s = w := by
        by_cases hpoint : e.lo = e.hi
        · rw [hs hpoint, hw hpoint]
        · have hlows := Extent.forall₂_lo_mem_samples es hn
          have hprod : (s - w) * ((e.hi : ℚ) - e.lo) = 0 := by
            have h₁ := hlo _ hlows
            have h₂ := hhi _ hlows
            linarith
          have hspan : (e.hi : ℚ) - e.lo ≠ 0 :=
            sub_ne_zero.mpr (Nat.cast_injective.ne (Ne.symm hpoint))
          exact sub_eq_zero.mp ((mul_eq_zero.mp hprod).resolve_right hspan)
      subst hsw
      obtain ⟨rfl, rfl⟩ := ih (a := a) (c := c) hws fun tuple htuple => by
        have h₁ := hlo tuple htuple
        simp only [modelValue]
        linarith
      exact ⟨rfl, rfl⟩

/-- The model closest to the values of a linear model at the samples is that
model. -/
theorem Closest.eq_of_linear (hn : 2 ≤ n) {b : Box ℚ} {y : List ℕ → ℚ}
    {m w : List ℚ × ℚ} (h : Closest b.extents (b.sampleTuples n) y m)
    (hw : Extent.SlopesFor b.extents w.1)
    (hy : ∀ tuple ∈ b.sampleTuples n, y tuple = modelValue w tuple) : m = w := by
  have hzero : squaredMiss (b.sampleTuples n) y w = 0 := by
    refine sumOver_eq_zero fun tuple htuple => ?_
    rw [hy tuple htuple, sub_self, sq, mul_zero]
  have hle : squaredMiss (b.sampleTuples n) y m ≤ 0 := (h.least w hw).trans hzero.le
  obtain ⟨hslopes, hintercept⟩ := h.slopesFor.unique hn hw fun tuple htuple => by
    have hmem : tuple ∈ b.sampleTuples n := Box.mem_sampleTuples.mpr htuple
    have hmiss := eq_zero_of_sumOver_sq_le hle hmem
    rw [← hy tuple hmem]
    exact sub_eq_zero.mp hmiss
  exact Prod.ext hslopes hintercept

end IntervalProgramming
