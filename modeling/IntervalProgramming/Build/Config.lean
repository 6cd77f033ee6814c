import IntervalProgramming.Box.Basic
import IntervalProgramming.Fit.Regressor

/-!
# Build parameters

What a build is to do, and what can be wrong with that.
-/

namespace IntervalProgramming

variable {α : Type} [Scalar α]

/-- The shape of the pieces that a build starts from. -/
inductive UnitSpec where
  /-- About this many pieces, as many along every dimension. -/
  | amount (n : Nat)
  /-- Pieces of these widths, one for each variable. -/
  | widths (w : List Nat)
  deriving DecidableEq, Repr

/-- A region and the unit box it is to be tiled with. -/
structure FineRegion (α : Type) [Scalar α] where
  region : Box α
  unit : Box α

/-- The parameters of a build. -/
structure BuildConfig (α : Type) [Scalar α] where
  unit : UnitSpec := .amount 1
  /-- Grid cell widths, one for each variable; the unit widths if absent. -/
  gridCell : Option (List Nat) := none
  /-- Cuts to be made at the most. -/
  budget : Nat := 0
  /-- Cuts to be made at the most, as a percentage of the pieces laid out.  The larger of the two
  limits counts. -/
  percent : α := ((0 : Nat) : α)
  /-- Pieces with an error up to this are not cut. -/
  threshold : α := ((0 : Nat) : α)
  degree : Degree := .linear
  samples : Nat := Regressor.defaultSamples
  /-- Regions to be laid out anew, in order. -/
  regions : List (FineRegion α) := []
  /-- Single index tuples that are to be pieces of their own. -/
  points : List (Box α) := []
  /-- Regions kept as single pieces.  They have precedence over regions and points. -/
  plateaus : List (Box α) := []
  /-- Whether the result is to be rescaled onto the normal range. -/
  normalize : Bool := false

/-- What can be wrong with a list of widths, one for each variable. -/
inductive WidthFault where
  /-- The list has the wrong length. -/
  | count (widths vars : Nat)
  /-- A width is zero. -/
  | zeroWidth
  deriving DecidableEq, Repr

/-- The wording of a width fault. -/
def WidthFault.message : WidthFault → String
  | .count widths vars => s!"{widths} extents for {vars} variables"
  | .zeroWidth => "zero-width extent"

/-- What is wrong with widths for so many variables, if anything is. -/
def WidthFault.find? (vars : Nat) (widths : List Nat) : Option WidthFault :=
  if widths.length != vars then some (.count widths.length vars)
  else if widths.contains 0 then some .zeroWidth
  else none

/-- Why a unit box is refused. -/
inductive UnitFault where
  /-- The widths asked for are at fault. -/
  | widths (fault : WidthFault)
  /-- There is no unit box for the amount asked for. -/
  | noUnitForAmount
  /-- The widths asked for make no box. -/
  | malformed
  /-- The unit box does not tile the domain. -/
  | noTiling
  deriving DecidableEq, Repr

/-- The wording of a unit fault. -/
def UnitFault.message : UnitFault → String
  | .widths fault => fault.message
  | .noUnitForAmount => "no unit box for amount"
  | .malformed => "malformed extents"
  | .noTiling => "empty uniform partition"

/-- Why a build is refused. -/
inductive BuildError where
  | emptyDomain
  | badUnit (fault : UnitFault)
  | badGridCell (fault : WidthFault)
  /-- A region does not fit the domain, or its unit does not fit the region. -/
  | badRegion (index : Nat)
  | badPoint (index : Nat)
  | badPlateau (index : Nat)
  deriving DecidableEq, Repr

/-- The wording of a build error. -/
def BuildError.message : BuildError → String
  | .emptyDomain => "domain has no variables"
  | .badUnit fault => "invalid unit box: " ++ fault.message
  | .badGridCell fault => "invalid grid cell: " ++ fault.message
  | .badRegion index => s!"refine region #{index} does not fit the domain"
  | .badPoint index => s!"refine point #{index} is not a point box inside the domain"
  | .badPlateau index => s!"plateau #{index} does not fit the domain"

end IntervalProgramming
