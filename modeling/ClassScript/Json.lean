import ClassScript.Number.Text
import ClassScript.Text.Quoted

/-! JSON trees and their two texts. The compact text has no blanks; the indented one gives each
member of an object a line of its own. -/
namespace ClassScript

/-- A JSON value without arrays. A `double` always shows a point or an exponent. -/
inductive Json where
  | null
  | bool (value : Bool)
  | whole (value : Int)
  | double (value : Float)
  | string (text : String)
  | object (members : List (String × Json))

namespace Json

def indent (level : Nat) : String := .ofList (.replicate (2 * level) ' ')

def wholeText (value : Int) : String :=
  if value < 0 then "-" ++ value.natAbs.repr else value.natAbs.repr

mutual
/-- The text without blanks. -/
def compact : Json → String
  | null => "null"
  | bool value => if value then "true" else "false"
  | whole value => wholeText value
  | double value => Number.json value
  | string text => Text.jsonQuote text
  | object members => "\x7b" ++ ",".intercalate (compactMembers members) ++ "\x7d"

def compactMembers : List (String × Json) → List String
  | [] => []
  | (name, value) :: members =>
    (Text.jsonQuote name ++ ":" ++ value.compact) :: compactMembers members
end

mutual
/-- The text with one line for each member, indented by two blanks for each level. -/
def indented (level : Nat) : Json → String
  | null => "null"
  | bool value => if value then "true" else "false"
  | whole value => wholeText value
  | double value => Number.json value
  | string text => Text.jsonQuote text
  | object [] => "\x7b\x7d"
  | object (member :: members) =>
    "\x7b\n" ++ ",\n".intercalate (indentedMembers (level + 1) (member :: members)) ++ "\n"
      ++ indent level ++ "\x7d"

def indentedMembers (level : Nat) : List (String × Json) → List String
  | [] => []
  | (name, value) :: members =>
    (indent level ++ Text.jsonQuote name ++ ": " ++ value.indented level)
      :: indentedMembers level members
end

end Json

end ClassScript
