import ClassScript.Syntax.Tree

/-! Reading a tree from tokens. A reading either takes some tokens off the front or fails at some
place; in both cases its type bounds what is left. Behind the last token stands the end of the
source. -/
namespace ClassScript

/-- What a parameter list and a body belong to. -/
inductive Routine where
  | function
  | method
  | staticMethod
  deriving DecidableEq, Repr

def Routine.text : Routine → String
  | function => "function"
  | method => "method"
  | staticMethod => "static method"

/-- What a reading missed, or had too many of. -/
inductive SyntaxFault where
  | className
  | superclassName
  | classOpen
  | classClose
  | routineName (routine : Routine)
  | routineParen (routine : Routine)
  | routineOpen (routine : Routine)
  | parameterName
  | parametersClose
  | tooManyParameters
  | variableName
  | variableEnd
  | constantName
  | constantValue (name : String)
  | constantEnd
  | forOpen
  | forConditionEnd
  | forClose
  | ifOpen
  | whileOpen
  | conditionClose
  | printEnd
  | expressionEnd
  | returnEnd
  | blockClose
  | assignmentTarget
  | propertyName
  | argumentsClose
  | tooManyArguments
  | superDot
  | superMethodName
  | groupClose
  | expression
  | surplus
  deriving DecidableEq, Repr

def SyntaxFault.message : SyntaxFault → String
  | className => "Expected class name"
  | superclassName => "Expected superclass name"
  | classOpen => "Expected '\x7b' before class body"
  | classClose => "Expected '\x7d' after class body"
  | routineName routine => "Expected " ++ routine.text ++ " name"
  | routineParen routine => "Expected '(' after " ++ routine.text ++ " name"
  | routineOpen routine => "Expected '\x7b' before " ++ routine.text ++ " body"
  | parameterName => "Expected parameter name"
  | parametersClose => "Expected ')' after parameters"
  | tooManyParameters => "Cannot have more than 255 parameters"
  | variableName => "Expected variable name"
  | variableEnd => "Expected ';' after variable declaration"
  | constantName => "Expected constant name"
  | constantValue name => "Expected initializer for constant '" ++ name ++ "'"
  | constantEnd => "Expected ';' after constant declaration"
  | forOpen => "Expected '(' after 'for'"
  | forConditionEnd => "Expected ';' after loop condition"
  | forClose => "Expected ')' after for clauses"
  | ifOpen => "Expected '(' after 'if'"
  | whileOpen => "Expected '(' after 'while'"
  | conditionClose => "Expected ')' after condition"
  | printEnd => "Expected ';' after value"
  | expressionEnd => "Expected ';' after expression"
  | returnEnd => "Expected ';' after return value"
  | blockClose => "Expected '\x7d' after block"
  | assignmentTarget => "Invalid assignment target"
  | propertyName => "Expected property name after '.'"
  | argumentsClose => "Expected ')' after arguments"
  | tooManyArguments => "Cannot have more than 255 arguments"
  | superDot => "Expected '.' after 'super'"
  | superMethodName => "Expected superclass method name"
  | groupClose => "Expected ')' after expression"
  | expression => "Expected expression"
  | surplus => "Unexpected tokens after expression"

/-- A fault and the line it is reported on. -/
structure SyntaxError where
  cause : SyntaxFault
  line : Nat
  deriving DecidableEq, Repr

/-- The outcome of a reading that leaves fewer than `n` tokens if it succeeds, and at most `n` if it
fails. A success also gives the next free identity. -/
inductive Reading (α : Type) (n : Nat) where
  | done (value : α) (nextId : Nat) (rest : List Token)
      (shorter : rest.length < n := by (try simp only [List.length_cons] at *); omega)
  | failed (error : SyntaxError) (rest : List Token)
      (notLonger : rest.length ≤ n := by (try simp only [List.length_cons] at *); omega)

namespace Reading

variable {α β : Type} {m n : Nat}

/-- The same outcome, held against a larger bound. -/
def within (r : Reading α m)
    (h : m ≤ n := by (try simp only [List.length_cons] at *); omega) : Reading α n :=
  match r with
  | done value nextId rest _ => done value nextId rest
  | failed error rest _ => failed error rest

/-- Goes on with what is left. -/
def andThen (r : Reading α m)
    (next : (value : α) → (nextId : Nat) → (rest : List Token) → rest.length < m → Reading β n)
    (h : m ≤ n := by (try simp only [List.length_cons] at *); omega) : Reading β n :=
  match r with
  | done value nextId rest shorter => next value nextId rest shorter
  | failed error rest _ => failed error rest

def map (r : Reading α m) (f : α → β)
    (h : m ≤ n := by (try simp only [List.length_cons] at *); omega) : Reading β n :=
  r.andThen (fun value nextId rest _ => done (f value) nextId rest) h

/-- Gives up some of what is left after a failure. -/
def recover (skip : List Token → List Token)
    (skip_le : ∀ ts, (skip ts).length ≤ ts.length) (r : Reading α n) : Reading α n :=
  match r with
  | done value nextId rest _ => done value nextId rest
  | failed error rest notLonger =>
    failed error (skip rest) (Nat.le_trans (skip_le rest) notLonger)

end Reading

end ClassScript
