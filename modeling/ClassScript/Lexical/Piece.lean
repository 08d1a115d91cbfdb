import ClassScript.Lexical.Token
import ClassScript.Number.Numeral
import ClassScript.Text.Utf8

/-! Cutting a source into pieces. Every byte belongs to exactly one piece: a blank, a comment, a
token or a fault. A piece is the longest of its sort that begins where it begins. -/
namespace ClassScript

/-- Why some bytes of a source are no token. -/
inductive LexFault where
  | unexpected (text : String)
  | unterminatedString
  | unterminatedComment
  deriving DecidableEq, Repr

def LexFault.message : LexFault → String
  | unexpected text => "Unexpected character: " ++ text
  | unterminatedString => "Unterminated string."
  | unterminatedComment => "Unterminated block comment."

inductive Part where
  | blank
  | comment
  | token (kind : TokenKind)
  | fault (cause : LexFault)

/-- A part of the source with the bytes it consists of. -/
structure Piece where
  part : Part
  span : List UInt8

namespace Piece

def newline : UInt8 := '\n'.toUInt8

def isBlank (b : UInt8) : Bool :=
  b == ' '.toUInt8 || b == '\r'.toUInt8 || b == '\t'.toUInt8 || b == newline

def isWordStart (b : UInt8) : Bool :=
  ('a'.toUInt8 ≤ b && b ≤ 'z'.toUInt8) || ('A'.toUInt8 ≤ b && b ≤ 'Z'.toUInt8) || b == '_'.toUInt8

def isWord (b : UInt8) : Bool := isWordStart b || Number.isDigit b

/-- The number of bytes up to the end of the first comment closer. -/
def closer? : List UInt8 → Option Nat
  | [] => none
  | b :: rest =>
    if b == '*'.toUInt8 && rest.head? == some '/'.toUInt8 then some 2
    else (closer? rest).map (· + 1)

/-- The operator that the bytes begin with, and the number of bytes after the first it has. -/
def operator? (first : UInt8) (rest : List UInt8) : Option (Symbol × Nat) :=
  let pair := Symbol.pairs.find? fun entry =>
    entry.1.1.toUInt8 == first && rest.head? == some entry.1.2.toUInt8
  match pair with
  | some entry => some (entry.2, 1)
  | none =>
    (Symbol.singles.find? fun entry => entry.1.toUInt8 == first).map fun entry => (entry.2, 0)

/-- The digits after the point of a numeral whose whole part is read, with the point; empty when no
digit follows a point. -/
def places (rest : List UInt8) : List UInt8 :=
  match rest with
  | b :: more =>
    if b == '.'.toUInt8 && more.head?.any Number.isDigit then b :: more.takeWhile Number.isDigit
    else []
  | [] => []

/-- What the bytes begin with, and how many bytes after the first belong to it. -/
def head (first : UInt8) (rest : List UInt8) : Part × Nat :=
  if isBlank first then (.blank, 0)
  else if first == '/'.toUInt8 && rest.head? == some '/'.toUInt8 then
    (.comment, (rest.takeWhile (· != newline)).length)
  else if first == '/'.toUInt8 && rest.head? == some '*'.toUInt8 then
    match closer? rest.tail with
    | some length => (.comment, length + 1)
    | none => (.fault .unterminatedComment, rest.length)
  else if first == '"'.toUInt8 then
    let body := rest.takeWhile (· != '"'.toUInt8)
    if body.length < rest.length then
      (.token (.string (Text.decodeString body)), body.length + 1)
    else (.fault .unterminatedString, rest.length)
  else if Number.isDigit first then
    let whole := rest.takeWhile Number.isDigit
    let places := places (rest.drop whole.length)
    (.token (.number (Number.ofNumeral (first :: whole) places.tail)), whole.length + places.length)
  else if isWordStart first then
    let word := rest.takeWhile isWord
    (.token (.symbol (.ofWord (Text.decodeString (first :: word)))), word.length)
  else
    match operator? first rest with
    | some (s, length) => (.token (.symbol s), length)
    | none =>
      let more := if first == '?'.toUInt8 then [] else rest.takeWhile Text.continuation.holds
      (.fault (.unexpected (Text.decodeString (first :: more))), more.length)

/-- The pieces of a source. -/
def cut : List UInt8 → List Piece
  | [] => []
  | first :: rest =>
    let (part, length) := head first rest
    ⟨part, first :: rest.take length⟩ :: cut (rest.drop length)
termination_by source => source.length
decreasing_by simp only [List.length_cons, List.length_drop]; omega

@[simp] theorem cut_nil : cut [] = [] := by rw [cut]

theorem cut_cons (first : UInt8) (rest : List UInt8) :
    cut (first :: rest) =
      ⟨(head first rest).1, first :: rest.take (head first rest).2⟩
        :: cut (rest.drop (head first rest).2) := by
  rw [cut]

/-- The pieces in order are the source. -/
theorem flatMap_span_cut (source : List UInt8) : (cut source).flatMap span = source := by
  fun_induction cut source with
  | case1 => rfl
  | case2 first rest part length h ih => simp [ih]

/-- The number of line ends in a span. -/
def lineEnds (span : List UInt8) : Nat := span.count newline

end Piece

end ClassScript
