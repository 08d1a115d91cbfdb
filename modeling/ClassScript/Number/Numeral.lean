/-! Reading numerals: decimal digits, with or without places after a point. -/
namespace ClassScript.Number

/-- The bytes of the ten digits. -/
def isDigit (b : UInt8) : Bool := 0x30 ≤ b && b ≤ 0x39

/-- The whole number that a row of digits writes. -/
def digitsValue (digits : List UInt8) : Nat :=
  digits.foldl (fun value digit => 10 * value + (digit.toNat - 0x30)) 0

/-- The double nearest to the numeral; one too large for a double is infinite. -/
def ofNumeral (whole places : List UInt8) : Float :=
  .ofScientific (digitsValue (whole ++ places)) true places.length

end ClassScript.Number
