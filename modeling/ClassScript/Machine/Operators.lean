import ClassScript.Machine.Fault
import ClassScript.Number.Exact
import ClassScript.Object.Value

/-! What operators make of values. -/
namespace ClassScript

namespace Value

/-- Applies an operator that stands before its operand. -/
def applyUnary (operator : Token) (operand : Value) : Except RuntimeFault Value :=
  match operator.kind, operand with
  | .symbol .minus, .number x => .ok (.number (-x))
  | .symbol .minus, operand => .error (.operand (.negation operand.typeName))
  | .symbol .bang, operand => .ok (.bool !operand.truthy)
  | .symbol .doubleBang, operand => .ok (.bool operand.truthy)
  | _, _ => .error (.operand (.unaryOperator operator.lexeme))

/-- Two numbers, for an operator that takes nothing else. -/
def numbers (operator : Token) (left right : Value) : Except RuntimeFault (Float × Float) :=
  match left, right with
  | .number x, .number y => .ok (x, y)
  | _, _ => .error (.operand (.numbers operator.lexeme left.typeName right.typeName))

/-- Adds numbers; joins texts when an operand is a text. -/
def add (left right : Value) : Except RuntimeFault Value :=
  match left, right with
  | .number x, .number y => .ok (.number (x + y))
  | .string _, _ | _, .string _ => .ok (.string (left.display ++ right.display))
  | _, _ => .error (.operand (.addition left.typeName right.typeName))

/-- Divides numbers, by anything but zero. -/
def divideBy (operation : Float → Float → Float) (operator : Token) (left right : Value) :
    Except RuntimeFault Value := do
  let (x, y) ← numbers operator left right
  if y == 0 then throw .divisionByZero
  return .number (operation x y)

/-- Compares two numbers, or two texts by their code points. -/
def order (onNumbers : Float → Float → Bool) (onTexts : String → String → Bool) (operator : Token)
    (left right : Value) : Except RuntimeFault Value :=
  match left, right with
  | .number x, .number y => .ok (.bool (onNumbers x y))
  | .string s, .string t => .ok (.bool (onTexts s t))
  | _, _ => .error (.operand (.comparison operator.lexeme left.typeName right.typeName))

/-- Applies an operator that stands between its operands. -/
def applyBinary (left : Value) (operator : Token) (right : Value) : Except RuntimeFault Value :=
  match operator.kind with
  | .symbol .plus => add left right
  | .symbol .minus => do
    let (x, y) ← numbers operator left right
    return .number (x - y)
  | .symbol .star => do
    let (x, y) ← numbers operator left right
    return .number (x * y)
  | .symbol .slash => divideBy (· / ·) operator left right
  | .symbol .mod => divideBy Number.remainder operator left right
  | .symbol .equalEqual => .ok (.bool (left.same right))
  | .symbol .bangEqual => .ok (.bool !left.same right)
  | .symbol .greater => order (fun x y => y < x) (fun s t => t < s) operator left right
  | .symbol .greaterEqual => order (fun x y => y ≤ x) (fun s t => !(s < t)) operator left right
  | .symbol .less => order (fun x y => x < y) (fun s t => s < t) operator left right
  | .symbol .lessEqual => order (fun x y => x ≤ y) (fun s t => !(t < s)) operator left right
  | _ => .error (.operand (.binaryOperator operator.lexeme))

end Value

end ClassScript
