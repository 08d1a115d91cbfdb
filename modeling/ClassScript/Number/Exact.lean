/-! Finite doubles as exact numbers: a sign, a whole number and a power of two. -/
namespace ClassScript.Number

/-- The number `mantissa * 2 ^ exponent`, negated when `negative`. Zero keeps its sign. -/
structure Exact where
  negative : Bool
  mantissa : Nat
  exponent : Int
  deriving DecidableEq, Repr

namespace Exact

/-- The exponent of the least positive double, which is also that of every subnormal. -/
def minExponent : Int := -1074

/-- The bit of a double that holds its sign. -/
def signBit : Nat := Nat.pow 2 63

/-- The first bit of a mantissa; a double stores only those behind it, in its lowest places. -/
def hiddenBit : Nat := Nat.pow 2 52

/-- Reads the three fields of a double; infinities and NaN have no exact value. -/
def ofFloat? (x : Float) : Option Exact :=
  let bits := x.toBits.toNat
  let negative := bits / signBit == 1
  let field : Nat := bits / hiddenBit % 2048
  let fraction := bits % hiddenBit
  if field = 2047 then none
  else if field = 0 then some ⟨negative, fraction, minExponent⟩
  else some ⟨negative, hiddenBit + fraction, field - 1075⟩

/-- The value has no fractional part. -/
def isWhole (x : Exact) : Bool :=
  0 ≤ x.exponent || x.mantissa % Nat.pow 2 (-x.exponent).toNat == 0

/-- The magnitude without its fractional part. -/
def whole (x : Exact) : Nat :=
  if 0 ≤ x.exponent then x.mantissa * Nat.pow 2 x.exponent.toNat
  else x.mantissa / Nat.pow 2 (-x.exponent).toNat

/-- The mantissa the number has when it is counted in units of `2 ^ exponent`, for a unit that
does not exceed its own. -/
def mantissaAt (x : Exact) (exponent : Int) : Nat :=
  x.mantissa * Nat.pow 2 (x.exponent - exponent).toNat

/-- The remainder of the division that rounds toward zero; it takes the sign of the dividend. -/
def remainder (x y : Exact) : Exact :=
  let unit := min x.exponent y.exponent
  ⟨x.negative, x.mantissaAt unit % y.mantissaAt unit, unit⟩

/-- Packs a number that a double can hold. The mantissa gets 53 bits, fewer only at the least
exponent. -/
def toFloat (x : Exact) : Float :=
  let sign := if x.negative then signBit else 0
  if x.mantissa = 0 then .ofBits (.ofNat sign)
  else
    let exponent := max (x.exponent + x.mantissa.log2 - 52) minExponent
    let mantissa :=
      if exponent ≤ x.exponent then x.mantissaAt exponent
      else x.mantissa / Nat.pow 2 (exponent - x.exponent).toNat
    if mantissa < hiddenBit then .ofBits (.ofNat (sign + mantissa))
    else
      .ofBits (.ofNat (sign + (exponent + 1075).toNat * hiddenBit + (mantissa - hiddenBit)))

end Exact

/-- The double is a whole number; infinities and NaN are not. -/
def isWhole (x : Float) : Bool := (Exact.ofFloat? x).any Exact.isWhole

/-- The remainder of doubles. It is exact; an infinite divisor leaves the dividend alone, and an
infinite dividend or a zero divisor has none. -/
def remainder (x y : Float) : Float :=
  match Exact.ofFloat? x, Exact.ofFloat? y with
  | some a, some b => if b.mantissa = 0 then 0.0 / 0.0 else (a.remainder b).toFloat
  | some _, none => if y.isNaN then y else x
  | none, _ => 0.0 / 0.0

end ClassScript.Number
