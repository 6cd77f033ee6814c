import IntervalProgramming.Scalar.Basic
import IntervalProgramming.Word

/-!
# Decision domains

A decision domain is an ordered list of named variables.  A variable takes finitely many values,
evenly spaced over a closed range, and everything else in this library speaks of the *index* of a
value: index `j` of a variable stands for `low + delta * j`.

Both types carry what makes them meaningful: a range is finite, not inverted and not empty, a range
of one point does not spread, and no two variables of a domain share a name.  So a domain can only be
made through `Domain.add`, which says what is wrong with a variable it refuses.
-/

namespace IntervalProgramming

variable {α : Type} [Scalar α]

/-- What can be wrong with the range of a variable. -/
inductive RangeFault where
  /-- An end of the range is not a number. -/
  | unbounded
  /-- The low end lies above the high end. -/
  | inverted
  /-- The range is to have no point. -/
  | noPoint
  /-- The range is to have one point, and its ends differ. -/
  | spreadPoint
  deriving DecidableEq, Repr

/-- The wording of a range fault. -/
def RangeFault.message : RangeFault → String
  | .unbounded => "bounds must be finite"
  | .inverted => "low > high"
  | .noPoint => "need at least one point"
  | .spreadPoint => "a single point requires low == high"

/-- Evenly spaced values: `points` of them, from `low` to `high`. -/
structure ValueRange (α : Type) [Scalar α] where
  low : α
  high : α
  points : UInt32
  low_finite : Scalar.isFinite low = true
  high_finite : Scalar.isFinite high = true
  ordered : ¬ high < low
  points_ne_zero : points ≠ 0
  single : points = 1 → (low == high) = true

namespace ValueRange

/-- The range with the given ends and number of points, or what is wrong with it.  Of several faults
the first in the order of `RangeFault` is reported. -/
def of? (low high : α) (points : UInt32) : Except RangeFault (ValueRange α) :=
  if hl : Scalar.isFinite low = true then
    if hh : Scalar.isFinite high = true then
      if ho : high < low then .error .inverted
      else if hp : points = 0 then .error .noPoint
      else if hs : points = 1 then
        if he : (low == high) = true then .ok ⟨low, high, points, hl, hh, ho, hp, fun _ => he⟩
        else .error .spreadPoint
      else .ok ⟨low, high, points, hl, hh, ho, hp, fun h => absurd h hs⟩
    else .error .unbounded
  else .error .unbounded

/-- The number of points of a range. -/
def count (r : ValueRange α) : Nat :=
  r.points.toNat

/-- The largest index of a range. -/
def lastIndex (r : ValueRange α) : Nat :=
  r.count - 1

/-- The step between neighbouring values; zero for a range of one point. -/
def delta (r : ValueRange α) : α :=
  if 1 < r.count then (r.high - r.low) / (r.lastIndex : α) else ((0 : Nat) : α)

/-- The value at index `j`. -/
def value (r : ValueRange α) (j : Nat) : α :=
  r.low + r.delta * (j : α)

theorem count_pos (r : ValueRange α) : 0 < r.count := by
  have h := r.points_ne_zero
  rw [count]
  exact Nat.pos_of_ne_zero fun h0 => h (UInt32.toNat_inj.mp h0)

theorem count_le_maxIndex (r : ValueRange α) : r.count ≤ maxIndex := by
  have h := r.points.toNat_lt
  simp only [count, maxIndex_eq]
  omega

/-- Whether two ranges have the same ends, points and step, as numbers. -/
def same (r s : ValueRange α) : Bool :=
  r.low == s.low && r.high == s.high && r.points == s.points && r.delta == s.delta

end ValueRange

/-- A named variable of a domain. -/
structure Variable (α : Type) [Scalar α] extends ValueRange α where
  name : String

/-- Why a variable is refused by a domain. -/
inductive DomainError where
  /-- The domain already has a variable of this name. -/
  | duplicateName (name : String)
  /-- The range of the variable is at fault. -/
  | invalidRange (name : String) (fault : RangeFault)
  deriving DecidableEq, Repr

/-- The wording of a domain error. -/
def DomainError.message : DomainError → String
  | .duplicateName name => s!"domain already has variable `{name}`"
  | .invalidRange name fault => s!"invalid range for variable `{name}`: " ++ fault.message

/-- A decision domain: variables in order, no two of one name. -/
structure Domain (α : Type) [Scalar α] where
  vars : List (Variable α)
  unique : (vars.map (·.name)).Nodup

namespace Domain

/-- The domain without variables. -/
def empty : Domain α :=
  ⟨[], List.nodup_nil⟩

/-- Append a variable.  A name that is taken is refused first, then a faulty range. -/
def add (d : Domain α) (name : String) (low high : α) (points : UInt32) :
    Except DomainError (Domain α) :=
  if h : name ∈ d.vars.map (·.name) then .error (.duplicateName name)
  else
    match ValueRange.of? low high points with
    | .error fault => .error (.invalidRange name fault)
    | .ok range =>
      .ok {
        vars := d.vars ++ [{ toValueRange := range, name := name }]
        unique := by
          rw [List.map_append, List.nodup_append]
          refine ⟨d.unique, by simp, ?_⟩
          intro a ha b hb hab
          simp only [List.map_cons, List.map_nil, List.mem_singleton] at hb
          exact h (hb ▸ hab ▸ ha) }

/-- The number of variables. -/
def size (d : Domain α) : Nat :=
  d.vars.length

/-- Whether the domain has no variable. -/
def isEmpty (d : Domain α) : Bool :=
  d.vars.isEmpty

/-- The position of the variable of a name. -/
def indexOf? (d : Domain α) (name : String) : Option Nat :=
  d.vars.findIdx? fun v => v.name == name

/-- Whether the domain has a variable of this name. -/
def hasVar (d : Domain α) (name : String) : Bool :=
  (d.indexOf? name).isSome

/-- The variable at a position. -/
def var? (d : Domain α) (k : Nat) : Option (Variable α) :=
  d.vars[k]?

/-- The name of the variable at a position. -/
def varName? (d : Domain α) (k : Nat) : Option String :=
  (d.var? k).map (·.name)

/-- The number of points of the variable at a position; zero where there is none. -/
def pointCount (d : Domain α) (k : Nat) : Nat :=
  ((d.var? k).map (·.count)).getD 0

/-- The number of points of each variable. -/
def counts (d : Domain α) : List Nat :=
  d.vars.map (·.count)

/-- The number of points of the domain, as a scalar: it may be too large for a count. -/
def totalPoints (d : Domain α) : α :=
  (d.vars.map fun v => (v.count : α)).foldl (· * ·) ((1 : Nat) : α)

/-- The value at index `j` of the variable at position `k`, if there is such a variable and it has
that many points. -/
def valueAt? (d : Domain α) (k j : Nat) : Option α :=
  match d.var? k with
  | none => none
  | some v => if j < v.count then some (v.value j) else none

/-- Whether two domains have the same variables in the same order, as numbers. -/
def same (d e : Domain α) : Bool :=
  d.vars.length == e.vars.length &&
    (d.vars.zip e.vars).all fun (v, w) => v.name == w.name && v.toValueRange.same w.toValueRange

instance : BEq (Domain α) := ⟨same⟩

end Domain

end IntervalProgramming
