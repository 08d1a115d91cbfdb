import ClassScript.Number.Exact

/-! The shortest decimal that reads back as a given double. All arithmetic is exact: a double is a
whole number of units of a power of ten, and so, in quarters of its last bit, is the interval of
numbers that round to it. -/
namespace ClassScript.Number

/-- The number `coefficient * 10 ^ exponent`. -/
structure Decimal where
  coefficient : Nat
  exponent : Int
  deriving DecidableEq, Repr

/-- Which of two equally near decimals is taken. -/
inductive Tie where
  | up
  | even
  deriving DecidableEq, Repr

/-- Takes the zeros off the end of a coefficient; zero itself has the exponent zero. -/
def Decimal.trimmed (d : Decimal) : Decimal :=
  if h : d.coefficient = 0 then ⟨0, 0⟩
  else if d.coefficient % 10 = 0 then Decimal.trimmed ⟨d.coefficient / 10, d.exponent + 1⟩
  else d
termination_by d.coefficient
decreasing_by omega

/-- The decimal digits of a coefficient, the highest first. -/
def Decimal.digits (d : Decimal) : List Char := Nat.toDigits 10 d.coefficient

/-- The exponent of the first digit. -/
def Decimal.leading (d : Decimal) : Int := d.exponent + d.digits.length - 1

namespace Exact

/-- One unit of the mantissa, as a multiple of the power of ten that `scale` gives. -/
def unit (x : Exact) : Nat :=
  if 0 ≤ x.exponent then Nat.pow 2 x.exponent.toNat else Nat.pow 5 (-x.exponent).toNat

/-- The exponent of the power of ten of which every double of this exponent is a multiple. -/
def scale (x : Exact) : Int := min x.exponent 0

/-- All decimal digits of the magnitude. -/
def decimal (x : Exact) : Decimal := ⟨x.mantissa * x.unit, x.scale⟩

/-- The magnitude's neighbour below is nearer than the one above. -/
def atBinade (x : Exact) : Bool := x.mantissa == hiddenBit && minExponent < x.exponent

/-- The decimal lies in the interval of numbers that round to the double. Its coefficient counts in
units of `10 ^ scale`; the ends of the interval belong to an even mantissa. -/
def readsAs (x : Exact) (coefficient : Nat) : Bool :=
  let low := (4 * x.mantissa - if x.atBinade then 1 else 2) * x.unit
  let high := (4 * x.mantissa + 2) * x.unit
  let at_ := 4 * coefficient
  if x.mantissa % 2 = 0 then low ≤ at_ && at_ ≤ high else low < at_ && at_ < high

/-- The nearer of the two neighbours of the magnitude on the grid of multiples of `10 ^ step`, of
those that read back. -/
def onGrid? (tie : Tie) (x : Exact) (step : Nat) : Option Decimal :=
  let grid := Nat.pow 10 step
  let whole := x.mantissa * x.unit
  let below := whole / grid
  let pick (coefficient : Nat) : Option Decimal := some ⟨coefficient, x.scale + step⟩
  match x.readsAs (below * grid), x.readsAs ((below + 1) * grid) with
  | true, true =>
    match compare (2 * whole) ((2 * below + 1) * grid), tie with
    | .lt, _ => pick below
    | .gt, _ => pick (below + 1)
    | .eq, .up => pick (below + 1)
    | .eq, .even => pick (if below % 2 = 0 then below else below + 1)
  | true, false => pick below
  | false, true => pick (below + 1)
  | false, false => none

/-- The first grid with a decimal that reads back, from the coarsest on; the finest holds the
magnitude itself. -/
def firstGrid (tie : Tie) (x : Exact) : Nat → Decimal
  | 0 => x.decimal
  | step + 1 =>
    match x.onGrid? tie (step + 1) with
    | some d => d
    | none => x.firstGrid tie step

/-- The fewest digits that read back as this magnitude, and of those the nearest. -/
def shortest (tie : Tie) (x : Exact) : Decimal :=
  (x.firstGrid tie (x.decimal.digits.length - 1)).trimmed

end Exact

end ClassScript.Number
