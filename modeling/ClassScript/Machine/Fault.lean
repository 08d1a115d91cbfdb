/-! What can go wrong in a run. -/
namespace ClassScript

/-- Operands that an operator does not take, by the names of their types. -/
inductive OperandFault where
  | negation (operand : String)
  | unaryOperator (operator : String)
  | addition (left right : String)
  | numbers (operator left right : String)
  | comparison (operator left right : String)
  | binaryOperator (operator : String)
  deriving DecidableEq, Repr

def OperandFault.message : OperandFault → String
  | negation operand => "Operand of '-' must be a number, got " ++ operand
  | unaryOperator operator => "Invalid unary operator '" ++ operator ++ "'"
  | addition left right =>
    "Cannot add " ++ left ++ " and " ++ right ++ "; operands must be numbers or include a string"
  | numbers operator left right =>
    "Operands of '" ++ operator ++ "' must be numbers, got " ++ left ++ " and " ++ right
  | comparison operator left right =>
    "Operands of '" ++ operator ++ "' must be two numbers or two strings, got " ++ left ++ " and "
      ++ right
  | binaryOperator operator => "Invalid binary operator '" ++ operator ++ "'"

/-- What is wrong with an operation at some line of a program. -/
inductive RuntimeFault where
  | notCallable (value : String)
  | arityMismatch (callee : String) (expected got : Nat)
  | undefined (name : String)
  | constant (name : String)
  | duplicate (name : String)
  | notAClass (name : String)
  | undefinedProperty (target name : String)
  | propertyTarget (target : String)
  | operand (cause : OperandFault)
  | divisionByZero
  deriving DecidableEq, Repr

def RuntimeFault.message : RuntimeFault → String
  | notCallable value => value ++ " is not callable"
  | arityMismatch callee expected got =>
    "<" ++ callee ++ "> expected " ++ expected.repr ++ " arguments, got " ++ got.repr
  | undefined name => "undefined variable '" ++ name ++ "'"
  | constant name => "assignment to constant variable '" ++ name ++ "'"
  | duplicate name => "identifier '" ++ name ++ "' has already been declared"
  | notAClass name => "superclass '" ++ name ++ "' is not a class"
  | undefinedProperty target name => target ++ " has no property called '" ++ name ++ "'"
  | propertyTarget target => target ++ " is not a class instance"
  | operand cause => cause.message
  | divisionByZero => "division by zero"

/-- Why output was not taken. -/
inductive SinkFault where
  | full
  | flushRefused
  deriving DecidableEq, Repr

def SinkFault.message : SinkFault → String
  | full => "sink full"
  | flushRefused => "flush refused"

/-- The error that ends a run. -/
inductive RuntimeError where
  | fault (cause : RuntimeFault) (line : Nat)
  | output (cause : SinkFault)
  deriving DecidableEq, Repr

end ClassScript
