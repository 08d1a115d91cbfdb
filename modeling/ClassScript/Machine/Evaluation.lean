import ClassScript.Machine.Operators
import ClassScript.Machine.State

/-! Running programs. Each function takes the depth to which it may nest; the steps are then
recursive on that number, whatever the program does. -/
namespace ClassScript

/-- How a statement ends: `return` travels up as a value. -/
inductive Signal where
  | normal
  | returned (value : Value)

namespace Machine

/-- A result of an operator, or its fault on the operator's line. -/
def ofExcept (line : Nat) : Except RuntimeFault Value → Run Value
  | .ok value => pure value
  | .error cause => fault cause line

/-- A left operand that settles `and` or `or`. -/
def settles (operator : Token) (left : Value) : Bool :=
  if operator.is .orWord then left.truthy else !left.truthy

/-- Binds arguments to parameters, as far as both go. -/
def bindArguments (scope : ScopeId) : List Token → List Value → Run Unit
  | parameter :: parameters, argument :: arguments => do
    onScopes parameter.line (Scopes.define scope parameter.lexeme argument false)
    bindArguments scope parameters arguments
  | _, _ => pure ()

/-- The name by which a superclass expression is reported. -/
def superclassLabel (e : Expr) (value : Value) : String :=
  match e with
  | .var _ name => name.lexeme
  | _ => value.display

mutual

def evaluate : Nat → Expr → Run Value
  | 0, _ => throw .tooDeep
  | depth + 1, e =>
    match e with
    | .literal value => pure (.ofLiteral value)
    | .group inner => evaluate depth inner
    | .var id name => lookup id name.lexeme name.line
    | .assign id name value => do
      let value ← evaluate depth value
      assign id name value
      return value
    | .unary operator operand => do
      let operand ← evaluate depth operand
      ofExcept operator.line (operand.applyUnary operator)
    | .binary left operator right =>
      if operator.is .coalesce then do
        let left ← evaluate depth left
        if left.isNull then evaluate depth right else return left
      else do
        let left ← evaluate depth left
        let right ← evaluate depth right
        ofExcept operator.line (left.applyBinary operator right)
    | .logical left operator right => do
      let left ← evaluate depth left
      if settles operator left then return left else evaluate depth right
    | .call callee paren arguments => do
      let callee ← evaluate depth callee
      match callee.callable? with
      | none => fault (.notCallable callee.display) paren.line
      | some (name, arity) =>
        let arguments ← evaluateAll depth arguments
        if arguments.length != arity then
          fault (.arityMismatch name arity arguments.length) paren.line
        else apply depth callee arguments
    | .property object name => do
      let object ← evaluate depth object
      property object name
    | .setProperty object name value => do
      let object ← evaluate depth object
      match object with
      | .object id _ =>
        let value ← evaluate depth value
        setField id name.lexeme value
        return value
      | other => fault (.propertyTarget other.display) name.line
    | .thisRef id keyword => lookup id "this" keyword.line
    | .superMethod id keyword method => superMember id keyword method

/-- The values of expressions, from left to right. -/
def evaluateAll : Nat → List Expr → Run (List Value)
  | 0, _ => throw .tooDeep
  | _ + 1, [] => pure []
  | depth + 1, e :: es => do
    let value ← evaluate depth e
    let values ← evaluateAll depth es
    return value :: values

/-- Calls a function or makes an object of a class. Arguments beyond the parameters are dropped;
parameters beyond the arguments stay unbound. A value that cannot be called gives `null`. -/
def apply : Nat → Value → List Value → Run Value
  | 0, _, _ => throw .tooDeep
  | depth + 1, callee, arguments =>
    match callee with
    | .function _ code => invoke depth code arguments
    | .classRef c => do
      let object ← newObject c
      match c.constructor? with
      | some found =>
        let _ ← invoke depth (← bind found object) arguments
        return object
      | none => return object
    | _ => pure .null

/-- Runs the body of a routine in a scope with its parameters. -/
def invoke : Nat → Closure → List Value → Run Value
  | 0, _, _ => throw .tooDeep
  | depth + 1, code, arguments => do
    let scope ← openScope code.scope []
    bindArguments scope code.declaration.params arguments
    match ← within scope (executeAll depth code.declaration.body) with
    | .returned value => return value
    | .normal => return .null

def execute : Nat → Stmt → Run Signal
  | 0, _ => throw .tooDeep
  | depth + 1, s =>
    match s with
    | .expr e => do
      let _ ← evaluate depth e
      return .normal
    | .print e => do
      print (← evaluate depth e)
      return .normal
    | .letDecl name initializer => do
      let value ← evaluateOption depth initializer
      define name value false
      return .normal
    | .constDecl name initializer => do
      let value ← evaluate depth initializer
      define name value true
      return .normal
    | .block body => do
      let scope ← openScope (← get).current []
      within scope (executeAll depth body)
    | .cond condition thenBranch elseBranch => do
      let condition ← evaluate depth condition
      if condition.truthy then execute depth thenBranch
      else
        match elseBranch with
        | some elseBranch => execute depth elseBranch
        | none => return .normal
    | .loop condition body => do
      let value ← evaluate depth condition
      if value.truthy then
        match ← execute depth body with
        | .returned value => return .returned value
        | .normal => execute depth (.loop condition body)
      else return .normal
    | .function declaration => do
      let value ← newFunction ⟨declaration, (← get).current⟩
      define declaration.name value false
      return .normal
    | .ret _ value => do
      return .returned (← evaluateOption depth value)
    | .classDecl name superclass methods statics => do
      declareClass depth name superclass methods statics
      return .normal

/-- Executes statements until one returns. -/
def executeAll : Nat → List Stmt → Run Signal
  | 0, _ => throw .tooDeep
  | _ + 1, [] => pure .normal
  | depth + 1, s :: ss => do
    match ← execute depth s with
    | .returned value => return .returned value
    | .normal => executeAll depth ss

/-- The value of an expression that may be absent; without one it is `null`. -/
def evaluateOption : Nat → Option Expr → Run Value
  | 0, _ => throw .tooDeep
  | _ + 1, none => pure .null
  | depth + 1, some e => evaluate depth e

/-- Declares a class. Its name is bound to `null` first, so that its methods are made in a scope
that has the name. -/
def declareClass : Nat → Token → Option Expr → List FunctionDecl → List FunctionDecl → Run Unit
  | 0, _, _, _, _ => throw .tooDeep
  | depth + 1, name, superclass, methods, statics => do
    define name .null false
    let ancestors ← evaluateSuperclass depth superclass
    let scope := (← get).current
    let body : ClassBody :=
      ⟨← newIdentity, name.lexeme, .ofDeclarations scope methods, .ofDeclarations scope statics⟩
    onScopes name.line (Scopes.assign scope name.lexeme (.classRef ⟨body, ancestors⟩))

/-- The chain of the class that a class extends. -/
def evaluateSuperclass : Nat → Option Expr → Run (List ClassBody)
  | 0, _ => throw .tooDeep
  | _ + 1, none => pure []
  | depth + 1, some e => do
    match ← evaluate depth e with
    | .classRef c => return c.chain
    | other => fault (.notAClass (superclassLabel e other)) e.line

end

/-- Executes the statements of a program; a `return` ends it. -/
def executeProgram (depth : Nat) (program : List Stmt) : Run Unit := do
  let _ ← executeAll depth program

/-- Executes a program and then flushes its output, whether the program stopped with an error or
not. -/
def interpret (depth : Nat) (program : List Stmt) : Run Unit := do
  let result ← observing (executeProgram depth program)
  let flushed ← observing (onSink Sink.flush)
  -- an error of the program outranks one of the flush
  liftExcept result
  liftExcept flushed

end Machine

end ClassScript
