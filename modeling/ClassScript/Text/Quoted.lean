/-! Quoted text: the strings of JSON, and names in messages. Both stand between double quotes, with
an escape for a quote, for a backslash and for control characters. -/
namespace ClassScript.Text

/-- The digits of a number to base sixteen, at least `width` of them. -/
def hex (width n : Nat) : List Char :=
  let digits := Nat.toDigits 16 n
  .replicate (width - digits.length) '0' ++ digits

/-- The escape of a character that a JSON string cannot hold as it is. -/
def jsonEscape? (c : Char) : Option (List Char) :=
  match c with
  | '"' => some ['\\', '"']
  | '\\' => some ['\\', '\\']
  | '\n' => some ['\\', 'n']
  | '\r' => some ['\\', 'r']
  | '\t' => some ['\\', 't']
  | '\x08' => some ['\\', 'b']
  | '\x0c' => some ['\\', 'f']
  | c => if c.toNat < 0x20 then some (['\\', 'u'] ++ hex 4 c.toNat) else none

/-- The escape of a character in a quoted name. -/
def nameEscape? (c : Char) : Option (List Char) :=
  match c with
  | '"' => some ['\\', '"']
  | '\\' => some ['\\', '\\']
  | '\n' => some ['\\', 'n']
  | '\r' => some ['\\', 'r']
  | '\t' => some ['\\', 't']
  | '\x00' => some ['\\', '0']
  | c =>
    if c.toNat < 0x20 || c.toNat = 0x7F then some (['\\', 'u', '\x7b'] ++ hex 1 c.toNat ++ ['\x7d'])
    else none

/-- Writes a text between quotes, each character by its escape if it has one. -/
def quote (escape? : Char → Option (List Char)) (text : String) : String :=
  .ofList ('"' :: text.toList.flatMap (fun c => (escape? c).getD [c]) ++ ['"'])

def jsonQuote (text : String) : String := quote jsonEscape? text

def nameQuote (text : String) : String := quote nameEscape? text

end ClassScript.Text
