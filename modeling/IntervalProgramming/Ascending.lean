/-!
# Ascending lists of indices

A sorted list of indices becomes strictly ascending when runs of equal entries are reduced to one, and
any list of indices has an ascending list of the same members.
-/

namespace IntervalProgramming

/-- Put an index in front of a list that does not start with it already. -/
def consNew (j : Nat) : List Nat → List Nat
  | [] => [j]
  | k :: rest => if j = k then k :: rest else j :: k :: rest

/-- Reduce every run of equal entries to one. -/
def dropRepeats (js : List Nat) : List Nat :=
  js.foldr consNew []

/-- The members of a list, each once and in order. -/
def ascending (js : List Nat) : List Nat :=
  dropRepeats (js.mergeSort fun j k => decide (j ≤ k))

theorem mem_consNew {i j : Nat} {js : List Nat} : i ∈ consNew j js ↔ i = j ∨ i ∈ js := by
  cases js with
  | nil => simp [consNew]
  | cons k rest =>
    simp only [consNew]
    split
    · subst j
      simp
    · simp

theorem mem_dropRepeats {i : Nat} {js : List Nat} : i ∈ dropRepeats js ↔ i ∈ js := by
  induction js with
  | nil => simp [dropRepeats]
  | cons j js ih =>
    simp only [dropRepeats, List.foldr_cons] at ih ⊢
    rw [mem_consNew, ih, List.mem_cons]

theorem mem_ascending {i : Nat} {js : List Nat} : i ∈ ascending js ↔ i ∈ js := by
  rw [ascending, mem_dropRepeats, List.mem_mergeSort]

theorem pairwise_dropRepeats {js : List Nat} (h : js.Pairwise (· ≤ ·)) :
    (dropRepeats js).Pairwise (· < ·) := by
  induction js with
  | nil => exact List.Pairwise.nil
  | cons j js ih =>
    obtain ⟨hj, hs⟩ := List.pairwise_cons.mp h
    have hle : ∀ i ∈ dropRepeats js, j ≤ i := fun i hi => hj i (mem_dropRepeats.mp hi)
    have ih := ih hs
    have hd : dropRepeats (j :: js) = consNew j (dropRepeats js) := rfl
    rw [hd]
    cases hk : dropRepeats js with
    | nil => simp [consNew]
    | cons k rest =>
      rw [hk] at ih hle
      simp only [consNew]
      split
      · exact ih
      · rename_i hne
        refine List.pairwise_cons.mpr ⟨?_, ih⟩
        intro i hi
        have hjk : j ≤ k := hle k List.mem_cons_self
        rcases List.mem_cons.mp hi with rfl | hi
        · omega
        · have := (List.pairwise_cons.mp ih).1 i hi
          omega

theorem pairwise_ascending (js : List Nat) : (ascending js).Pairwise (· < ·) := by
  refine pairwise_dropRepeats ?_
  have h : (js.mergeSort fun j k => decide (j ≤ k)).Pairwise fun j k => decide (j ≤ k) = true := by
    refine List.pairwise_mergeSort ?_ ?_ js
    · intro a b c hab hbc
      simp only [decide_eq_true_eq] at hab hbc ⊢
      exact Nat.le_trans hab hbc
    · intro a b
      simp only [Bool.or_eq_true, decide_eq_true_eq]
      exact Nat.le_total a b
  exact h.imp fun hjk => of_decide_eq_true hjk

end IntervalProgramming
