import ClassScript.Syntax.OfTokens

/-! A parser: a position in a list of tokens, moved on token by token. Every index is checked, and
no rule is told how far it may go. An operation has no result where an index is out of range, and
none where its calls are nested too deep. -/
namespace ClassScript

structure Parser where
  tokens : List Token
  /-- The index of the next token. -/
  position : Nat
  /-- The identity that the next node with an identity gets. -/
  nextId : Nat

namespace Parser

/-- An operation that does not fail. -/
abbrev Step := StateT Parser Option

/-- A rule of the grammar, which reads something or fails. -/
abbrev Rule := ExceptT SyntaxError Step

def new (tokens : List Token) : Parser := ⟨tokens, 0, 0⟩

/-- The token at an index. -/
def tokenAt (index : Parser → Nat) : Step Token := fun p =>
  p.tokens[index p]?.map fun t => (t, p)

/-- The next token. Behind the last token that is the last one still. -/
def peek : Step Token := tokenAt fun p => min p.position (p.tokens.length - 1)

def previous : Step Token := tokenAt fun p => p.position - 1

def atEnd : Step Bool := do
  if (← get).tokens.length ≤ (← get).position then return true
  else return (← peek).is .endOfSource

/-- The next token is this symbol, and the end is not yet reached. -/
def check (s : Symbol) : Step Bool := do
  if ← atEnd then return false
  else return (← peek).is s

/-- Passes the next token, unless the end is reached. -/
def advance : Step Token := do
  if ← atEnd then previous
  else
    modify fun p => { p with position := p.position + 1 }
    previous

/-- Passes the next token if it is this symbol. -/
def accept (s : Symbol) : Step Bool := do
  if ← check s then
    let _ ← advance
    return true
  else return false

def acceptAny : List Symbol → Step Bool
  | [] => return false
  | s :: symbols => do
    if ← accept s then return true else acceptAny symbols

def checkAny : List Symbol → Step Bool
  | [] => return false
  | s :: symbols => do
    if ← check s then return true else checkAny symbols

def freshId : Step Nat := fun p => some (p.nextId, { p with nextId := p.nextId + 1 })

/-- Takes the next token, which has to be this symbol. -/
def consume (s : Symbol) (cause : SyntaxFault) : Rule Token := do
  if ← check s then advance
  else throw ⟨cause, (← peek).line⟩

/-- The expression that assigns to a name or to a property; `line` is that of the equals sign. -/
def assign (target value : Expr) (line : Nat) : Rule Expr := do
  match target with
  | .var _ name => return .assign (← freshId) name value
  | .property object name => return .setProperty object name value
  | _ => throw ⟨.assignmentTarget, line⟩

/-- An operation without a result. -/
def stuck {α : Type} : Step α := fun _ => none

/-- Passes tokens up to a place where a statement may begin, in so many turns at most. -/
def resume : Nat → Step Unit
  | 0 => stuck
  | turns + 1 => do
    if ← atEnd then return
    else if (← previous).is .semicolon then return
    else if startsStatement (← peek) then return
    else
      let _ ← advance
      resume turns

/-- Passes the token at which a rule failed, and goes on to a place where a statement may begin. -/
def synchronize : Step Unit := do
  let _ ← advance
  resume ((← get).tokens.length + 1)

/-- The class that a class extends, if any. -/
def superclassClause : Rule (Option Expr) := do
  if ← accept .extendsWord then
    let name ← consume .identifier .superclassName
    return some (.var (← freshId) name)
  else return none

/-- The name of a class and that of the class it extends, up to the opening brace. -/
def classHeading : Rule (Token × Option Expr) := do
  let name ← consume .identifier .className
  let superclass ← superclassClause
  let _ ← consume .leftBrace .classOpen
  return (name, superclass)

/-- The parameters, when those in front are read. -/
def parameterList (line : Nat) (front : List Token) : Rule (List Token) := do
  if _full : maxArguments ≤ front.length then throw ⟨.tooManyParameters, line⟩
  else
    let parameter ← consume .identifier .parameterName
    if ← accept .comma then parameterList line (front ++ [parameter])
    else return front ++ [parameter]
termination_by maxArguments - front.length
decreasing_by simp only [List.length_append, List.length_singleton]; omega

/-- The parameters up to the closing parenthesis; `line` is that of the routine's name. -/
def parameters (line : Nat) : Rule (List Token) := do
  if ← check .rightParen then return []
  else parameterList line []

/-- The name and the parameters of a routine, up to the opening brace. -/
def routineHeading (routine : Routine) : Rule (Token × List Token) := do
  let name ← consume .identifier (.routineName routine)
  let _ ← consume .leftParen (.routineParen routine)
  let parameters ← parameters name.line
  let _ ← consume .rightParen .parametersClose
  let _ ← consume .leftBrace (.routineOpen routine)
  return (name, parameters)

/-- The rules that come back to themselves. -/
structure Rules where
  expression : Rule Expr
  /-- The operators of one level that follow a left operand. -/
  operatorChain : Level → List Level → Expr → Rule Expr
  unary : Rule Expr
  /-- The calls and the property accesses that follow an expression. -/
  suffixes : Expr → Rule Expr
  /-- The arguments, when those in front are read. -/
  argumentList : List Expr → Rule (List Expr)
  statement : Rule Stmt
  /-- The declarations of a block, when those in front are read. -/
  declarations : List Stmt → Rule (List Stmt)
  /-- The methods and the static methods of a class, when those in front are read. -/
  members : List FunctionDecl × List FunctionDecl → Rule (List FunctionDecl × List FunctionDecl)

section Grammar

/-! The rules of the grammar. `r` are those they come back to. -/

variable (r : Rules)

/-- The operators of the given levels and what they join. -/
def operators : List Level → Rule Expr
  | [] => r.unary
  | level :: tighter => do r.operatorChain level tighter (← operators tighter)

def operatorChain (level : Level) (tighter : List Level) (left : Expr) : Rule Expr := do
  if ← checkAny level.symbols then
    let operator ← advance
    let right ← operators r tighter
    r.operatorChain level tighter (level.node left operator right)
  else return left

def expression : Rule Expr := do
  let target ← operators r levels
  if ← accept .equal then
    let equals ← previous
    assign target (← r.expression) equals.line
  else return target

/-- The arguments up to the closing parenthesis. -/
def arguments : Rule (List Expr) := do
  if ← check .rightParen then return []
  else r.argumentList []

def argumentList (front : List Expr) : Rule (List Expr) := do
  if maxArguments ≤ front.length then throw ⟨.tooManyArguments, (← peek).line⟩
  else
    let argument ← r.expression
    if ← accept .comma then r.argumentList (front ++ [argument])
    else return front ++ [argument]

/-- The arguments of a call, and its closing parenthesis. -/
def finishCall (callee : Expr) : Rule Expr := do
  let arguments ← arguments r
  let paren ← consume .rightParen .argumentsClose
  return .call callee paren arguments

def suffixes (e : Expr) : Rule Expr := do
  if ← accept .leftParen then r.suffixes (← finishCall r e)
  else if ← accept .dot then
    let name ← consume .identifier .propertyName
    r.suffixes (.property e name)
  else return e

/-- A primary expression that is no literal. -/
def nonLiteral : Rule Expr := do
  if ← accept .thisWord then return .thisRef (← freshId) (← previous)
  else if ← accept .superWord then
    let keyword ← previous
    let _ ← consume .dot .superDot
    let method ← consume .identifier .superMethodName
    return .superMethod (← freshId) keyword method
  else if ← accept .identifier then return .var (← freshId) (← previous)
  else if ← accept .leftParen then
    let inner ← r.expression
    let _ ← consume .rightParen .groupClose
    return .group inner
  else throw ⟨.expression, (← peek).line⟩

def primary : Rule Expr := do
  if ← accept .falseWord then return .literal (.bool false)
  else if ← accept .trueWord then return .literal (.bool true)
  else if ← accept .nullWord then return .literal .null
  else
    -- a literal is taken without a look at whether the end is reached
    match (← peek).kind with
    | .number value =>
      let _ ← advance
      return .literal (.number value)
    | .string text =>
      let _ ← advance
      return .literal (.string text)
    | .symbol _ => nonLiteral r

def unary : Rule Expr := do
  if ← acceptAny [.bang, .doubleBang, .minus] then
    let operator ← previous
    return .unary operator (← r.unary)
  else suffixes r (← primary r)

/-- An expression, unless the next token is the one that stands behind it. -/
def optionalExpression (stop : Symbol) : Rule (Option Expr) := do
  if ← check stop then return none
  else return some (← r.expression)

/-- What follows the name of a variable. -/
def letInitializer : Rule (Option Expr) := do
  if ← accept .equal then return some (← r.expression)
  else return none

def letDeclaration : Rule Stmt := do
  let name ← consume .identifier .variableName
  let initializer ← letInitializer r
  let _ ← consume .semicolon .variableEnd
  return .letDecl name initializer

def constDeclaration : Rule Stmt := do
  let name ← consume .identifier .constantName
  let _ ← consume .equal (.constantValue name.lexeme)
  let value ← r.expression
  let _ ← consume .semicolon .constantEnd
  return .constDecl name value

def expressionStatement : Rule Stmt := do
  let e ← r.expression
  let _ ← consume .semicolon .expressionEnd
  return .expr e

def printStatement : Rule Stmt := do
  let e ← r.expression
  let _ ← consume .semicolon .printEnd
  return .print e

def returnStatement : Rule Stmt := do
  let keyword ← previous
  let value ← optionalExpression r .semicolon
  let _ ← consume .semicolon .returnEnd
  return .ret keyword value

/-- The first clause of a `for` statement, with its semicolon. -/
def forInitializer : Rule (Option Stmt) := do
  if ← accept .semicolon then return none
  else if ← accept .letWord then return some (← letDeclaration r)
  else return some (← expressionStatement r)

/-- The clauses of a `for` statement, in parentheses. -/
def forClauses : Rule (Option Stmt × Option Expr × Option Expr) := do
  let _ ← consume .leftParen .forOpen
  let initializer ← forInitializer r
  let condition ← optionalExpression r .semicolon
  let _ ← consume .semicolon .forConditionEnd
  let step ← optionalExpression r .rightParen
  let _ ← consume .rightParen .forClose
  return (initializer, condition, step)

/-- A condition in parentheses. -/
def condition (missing : SyntaxFault) : Rule Expr := do
  let _ ← consume .leftParen missing
  let e ← r.expression
  let _ ← consume .rightParen .conditionClose
  return e

/-- The branch behind `else`, if there is one. -/
def elseClause : Rule (Option Stmt) := do
  if ← accept .elseWord then return some (← r.statement)
  else return none

/-- The declarations of a block and its closing brace. -/
def block : Rule (List Stmt) := do
  let body ← r.declarations []
  let _ ← consume .rightBrace .blockClose
  return body

def statement : Rule Stmt := do
  if ← accept .forWord then
    let (initializer, condition, step) ← forClauses r
    return .forLoop initializer condition step (← r.statement)
  else if ← accept .ifWord then
    let condition ← condition r .ifOpen
    let thenBranch ← r.statement
    return .cond condition thenBranch (← elseClause r)
  else if ← accept .whileWord then
    let condition ← condition r .whileOpen
    return .loop condition (← r.statement)
  else if ← accept .returnWord then returnStatement r
  else if ← accept .leftBrace then return .block (← block r)
  else if ← accept .printWord then printStatement r
  else expressionStatement r

/-- A function, a method or a static method, from its name on. -/
def routine (kind : Routine) : Rule FunctionDecl := do
  let (name, parameters) ← routineHeading kind
  return ⟨name, parameters, ← block r⟩

def members (front : List FunctionDecl × List FunctionDecl) :
    Rule (List FunctionDecl × List FunctionDecl) := do
  if ← check .rightBrace then return front
  else if ← atEnd then return front
  else if ← accept .staticWord then r.members (front.1, front.2 ++ [← routine r .staticMethod])
  else r.members (front.1 ++ [← routine r .method], front.2)

/-- A declaration or a statement. -/
def unguarded : Rule Stmt := do
  if ← accept .classWord then
    let (name, superclass) ← classHeading
    let found ← r.members ([], [])
    let _ ← consume .rightBrace .classClose
    return .classDecl name superclass found.1 found.2
  else if ← accept .functionWord then return .function (← routine r .function)
  else if ← accept .letWord then letDeclaration r
  else if ← accept .constWord then constDeclaration r
  else r.statement

/-- A declaration or a statement. After a failure the parser goes on to a place where the next one
may begin. -/
def declaration : Rule Stmt := (do
  match ← (unguarded r).run with
  | .ok s => return .ok s
  | .error e =>
    synchronize
    return .error e : Step (Except SyntaxError Stmt))

def declarations (front : List Stmt) : Rule (List Stmt) := do
  if ← check .rightBrace then return front
  else if ← atEnd then return front
  else r.declarations (front ++ [← declaration r])

/-- The program, when these statements and errors are found in front, in so many turns at most. -/
def program : Nat → List Stmt → List SyntaxError → Step (Except (List SyntaxError) (List Stmt))
  | 0, _, _ => stuck
  | turns + 1, statements, errors => do
    if ← atEnd then return if errors.isEmpty then .ok statements else .error errors
    else
      match ← (declaration r).run with
      | .ok s => program turns (statements ++ [s]) errors
      | .error e => program turns statements (errors ++ [e])

end Grammar

/-- The rules when they come back to themselves so often at most. -/
def rules : Nat → Rules
  | 0 => ⟨stuck, fun _ _ _ => stuck, stuck, fun _ => stuck, fun _ => stuck, stuck, fun _ => stuck,
      fun _ => stuck⟩
  | depth + 1 =>
    let r := rules depth
    ⟨expression r, operatorChain r, unary r, suffixes r, argumentList r, statement r,
      declarations r, members r⟩

/-- So often the rules come back to themselves at most on these tokens. -/
def depth (tokens : List Token) : Nat := 4 * (tokens.length + 1)

/-- Reads a program: its statements, or all errors if there are any. -/
def parse : Step (Except (List SyntaxError) (List Stmt)) := do
  let tokens := (← get).tokens
  if tokens.isEmpty then return .ok []
  else program (rules (depth tokens)) (tokens.length + 1) [] []

/-- Reads an expression that takes up all tokens. -/
def parseExpression : Rule Expr := do
  let tokens := (← get).tokens
  if tokens.isEmpty then throw ⟨.expression, 1⟩
  else
    let e ← (rules (depth tokens)).expression
    if ← atEnd then return e
    else throw ⟨.surplus, (← peek).line⟩

end Parser

end ClassScript
