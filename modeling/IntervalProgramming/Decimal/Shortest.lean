/-!
# Shortest decimals

The shortest decimal text of a binary floating point number: the fewest digits that read back as the
same number, and of those the closest, written positionally whatever the size of the number.  If the
number lies half way between the two closest, the larger magnitude is taken.

A finite number is a whole number times a power of two, and the reals that round to it form an
interval around it.  The digits are found on the coarsest decimal grid that has a point in that
interval, in exact arithmetic.  The finest grid that is ever needed is that of `10 ^ -324`: the
interval of every number is wider than its step.
-/

namespace IntervalProgramming.Decimal

/-- The magnitude `mantissa * 2 ^ exponent / 2 ^ 1074` of a finite number.  `narrowBelow` says that
the next smaller number is only half as far away as the next larger one. -/
structure Magnitude where
  mantissa : Nat
  exponent : Nat
  narrowBelow : Bool
  deriving DecidableEq, Repr

/-- Whether the sign bit of a number is set. -/
def isNegative (x : Float) : Bool :=
  decide (Nat.pow 2 63 ≤ x.toBits.toNat)

/-- The magnitude of a finite number. -/
def Magnitude.of (x : Float) : Magnitude :=
  let bits := x.toBits.toNat % Nat.pow 2 63
  let field := bits / Nat.pow 2 52
  let fraction := bits % Nat.pow 2 52
  if field = 0 then ⟨fraction, 0, false⟩
  else ⟨Nat.pow 2 52 + fraction, field - 1, fraction = 0 && decide (1 < field)⟩

/-- The positive decimal `digits * 10 ^ grid / 10 ^ finest`. -/
structure Numeral where
  digits : Nat
  grid : Nat
  deriving DecidableEq, Repr

/-- The number of decimal places of the finest grid. -/
def finest : Nat := 324

/-- The number of the coarsest grid: its points are further apart than the largest finite number. -/
def coarsest : Nat := finest + 309

/-- Point number `n` of a decimal grid.  Grid points and magnitudes are compared as multiples of
`1 / (4 * 2 ^ 1074 * 10 ^ finest)`. -/
def gridPoint (grid n : Nat) : Nat :=
  n * Nat.pow 10 grid * (4 * Nat.pow 2 1074)

/-- The point of a grid in the rounding interval of a magnitude, the nearer one if two are in it, and
the upper one if both are equally near.  The interval reaches half way to the neighbours and has its
ends if the mantissa is even. -/
def gridHit? (x : Magnitude) (grid : Nat) : Option Nat :=
  let step := Nat.pow 2 x.exponent * Nat.pow 10 finest
  let value := 4 * x.mantissa * step
  let low := value - (if x.narrowBelow then step else 2 * step)
  let high := value + 2 * step
  let isInside (n : Nat) : Bool :=
    let y := gridPoint grid n
    n ≠ 0 && (if x.mantissa % 2 = 0 then low ≤ y && y ≤ high else low < y && y < high)
  let below := value / gridPoint grid 1
  let above := below + 1
  match isInside below, isInside above with
  | true, true =>
    if gridPoint grid above - value ≤ value - gridPoint grid below then some above else some below
  | true, false => some below
  | false, true => some above
  | false, false => none

/-- The hit on the coarsest grid up to a given one. -/
def coarsestHit (x : Magnitude) : Nat → Numeral
  | 0 => ⟨(gridHit? x 0).getD 0, 0⟩
  | grid + 1 =>
    match gridHit? x (grid + 1) with
    | some digits => ⟨digits, grid + 1⟩
    | none => coarsestHit x grid

/-- The shortest decimal that reads back as a magnitude that is not zero. -/
def shortest (x : Magnitude) : Numeral :=
  coarsestHit x coarsest

/-- A decimal in positional notation: no exponent, and no point after a whole number. -/
def Numeral.text (d : Numeral) : String :=
  let digits := Nat.toDigits 10 d.digits
  if finest ≤ d.grid then String.ofList (digits ++ List.replicate (d.grid - finest) '0')
  else
    let places := finest - d.grid
    let padded := List.replicate (places + 1 - digits.length) '0' ++ digits
    let whole := padded.length - places
    String.ofList (padded.take whole ++ '.' :: padded.drop whole)

/-- The shortest text that reads back as `x`, in positional notation. -/
def positional (x : Float) : String :=
  if x.isNaN then "NaN"
  else
    let sign := if isNegative x then "-" else ""
    if x.isInf then sign ++ "inf"
    else
      let magnitude := Magnitude.of x
      if magnitude.mantissa = 0 then sign ++ "0" else sign ++ (shortest magnitude).text

end IntervalProgramming.Decimal
