import ClassScript.Number.Shortest

/-! The texts of numbers: as a value, as a literal of the syntax tree, as a literal of a token, and
as a JSON number. They differ in what is said of whole numbers, of large ones and of the sign of
zero. -/
namespace ClassScript.Number

/-- Writes all places, without an exponent. -/
def Decimal.positional (d : Decimal) : String :=
  let digits := d.digits
  if 0 ≤ d.exponent then .ofList (digits ++ .replicate d.exponent.toNat '0')
  else
    let places := (-d.exponent).toNat
    if digits.length ≤ places then
      "0." ++ .ofList (.replicate (places - digits.length) '0' ++ digits)
    else
      let whole := digits.length - places
      .ofList (digits.take whole) ++ "." ++ .ofList (digits.drop whole)

/-- Writes one digit before the point, and the exponent with a sign. -/
def Decimal.scientific (d : Decimal) : String :=
  let mantissa :=
    match d.digits with
    | [] => ""
    | [digit] => .ofList [digit]
    | digit :: more => .ofList (digit :: '.' :: more)
  let mark := if 0 ≤ d.leading then "e+" else "e-"
  mantissa ++ mark ++ d.leading.natAbs.repr

/-- Infinities and NaN. -/
def nonFinite (x : Float) : String :=
  if x.isNaN then "NaN" else if x < 0 then "-inf" else "inf"

def Exact.signed (x : Exact) (text : String) : String :=
  if x.negative then "-" ++ text else text

/-- A number as a value: a whole number in full, any other by its shortest digits. -/
def display (x : Float) : String :=
  match Exact.ofFloat? x with
  | none => nonFinite x
  | some e => e.signed (if e.isWhole then e.whole.repr else (e.shortest .up).positional)

/-- A number as a literal of the syntax tree: a whole number shows one place. -/
def literal (x : Float) : String :=
  if isWhole x then display x ++ ".0" else display x

/-- The bound below which a token shows whole numbers in full. -/
def tokenBound : Nat := Nat.pow 2 63

/-- A number as the literal of a token: whole numbers below the bound show one place and zero has no
sign, any other number shows its shortest digits and no more. -/
def tokenLiteral (x : Float) : String :=
  match Exact.ofFloat? x with
  | none => nonFinite x
  | some e =>
    if e.isWhole && e.whole < tokenBound then
      if e.whole = 0 then "0.0" else e.signed (e.whole.repr ++ ".0")
    else e.signed (e.shortest .up).positional

/-- Leading exponents that JSON text writes without an exponent. -/
def jsonPositional (leading : Int) : Bool := -5 ≤ leading && leading ≤ 15

/-- A double as JSON text, always with a point or an exponent; JSON has no infinities and no NaN. -/
def json (x : Float) : String :=
  match Exact.ofFloat? x with
  | none => "null"
  | some e =>
    let d := e.shortest .even
    e.signed <|
      if jsonPositional d.leading then
        if 0 ≤ d.exponent then d.positional ++ ".0" else d.positional
      else d.scientific

/-- The bound below which JSON text writes whole numbers without a point. -/
def jsonBound : Nat := Nat.pow 2 53

/-- The whole numbers that JSON text writes without a point. -/
def jsonWhole? (x : Float) : Option Int :=
  match Exact.ofFloat? x with
  | none => none
  | some e =>
    if e.isWhole && e.whole < jsonBound then some (if e.negative then -e.whole else e.whole)
    else none

end ClassScript.Number
