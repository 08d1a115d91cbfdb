import ClassScript.Scoping.Resolution
import ClassScript.Syntax.Tree

/-! Scope analysis: one walk over a program that keeps the scopes a run will have, finds the
distance of each reference and collects the errors that need no run. A statement with an error is
given up, and the walk goes on behind it. At the top level there is no scope to keep: its names are
looked up at run time. -/
namespace ClassScript

/-- What is wrong with a program before it runs. -/
inductive StaticFault where
  | duplicate (name : String)
  | ownInitializer (name : String)
  | strayReturn
  | constructorReturn
  | strayKeyword (keyword : String)
  | selfInheritance (name : String)
  deriving DecidableEq, Repr

def StaticFault.message : StaticFault → String
  | duplicate name => "'" ++ name ++ "' is already declared in this scope"
  | ownInitializer name => "cannot read '" ++ name ++ "' in its own initializer"
  | strayReturn => "'return' outside of a function"
  | constructorReturn => "cannot return a value from a class constructor"
  | strayKeyword keyword => "invalid use of '" ++ keyword ++ "' here"
  | selfInheritance name => "class '" ++ name ++ "' cannot extend itself"

structure StaticError where
  cause : StaticFault
  line : Nat
  deriving DecidableEq, Repr

namespace Scoping

/-- The names that a scope declares, the latest first. A name is not yet defined while its
initializer is read. -/
abbrev Names := List (String × Bool)

/-- The callable body that a statement stands in. -/
inductive BodyKind where
  | none
  | function
  | method
  | constructor
  deriving DecidableEq, Repr

/-- The class body that a statement stands in. -/
inductive ClassKind where
  | none
  | base
  | derived
  deriving DecidableEq, Repr

/-- What a statement stands in. -/
structure Context where
  body : BodyKind
  cls : ClassKind
  deriving DecidableEq, Repr

/-- The scopes around the current place, the innermost first, and what the walk has found. -/
structure Progress where
  scopes : List Names
  errors : List StaticError
  resolution : Resolution

/-- A step of the walk. An error gives up the current statement and keeps what was found. -/
abbrev Walk := EStateM StaticError Progress

def report (error : StaticError) : Walk Unit :=
  modify fun p => { p with errors := p.errors ++ [error] }

/-- Marks a name in the innermost scope; without a scope nothing is marked. -/
def mark (name : String) (defined : Bool) : Walk Unit :=
  modify fun p =>
    match p.scopes with
    | [] => p
    | names :: outer => { p with scopes := ((name, defined) :: names) :: outer }

/-- Declares a name that its scope does not have yet. -/
def declare (name : Token) : Walk Unit := do
  let p ← get
  match p.scopes with
  | names :: _ =>
    if (names.lookup name.lexeme).isSome then throw ⟨.duplicate name.lexeme, name.line⟩
  | [] => pure ()
  mark name.lexeme false

def define (name : Token) : Walk Unit := mark name.lexeme true

/-- Takes the step and defines the name, also after an error. -/
def thenDefine (name : Token) (step : Walk Unit) : Walk Unit := fun p =>
  match step p with
  | .ok _ p => define name p
  | .error error p =>
    match define name p with
    | .ok _ p => .error error p
    | .error _ p => .error error p

/-- Takes the step in a new innermost scope, which is gone afterwards, also after an error. -/
def inScope (names : Names) (step : Walk Unit) : Walk Unit := fun p =>
  match step { p with scopes := names :: p.scopes } with
  | .ok _ q => .ok () { q with scopes := p.scopes }
  | .error error q => .error error { q with scopes := p.scopes }

/-- Takes the step and reports its error, so that the walk goes on. -/
def isolated (step : Walk Unit) : Walk Unit := fun p =>
  match step p with
  | .ok _ p => .ok () p
  | .error error p => report error p

/-- The number of scopes between the innermost and the first that declares the name. -/
def distance? (name : String) (scopes : List Names) : Option Nat :=
  scopes.findIdx? fun names => (names.lookup name).isSome

/-- Notes the distance of a reference, if some scope declares its name. -/
def resolve (id : Nat) (name : String) : Walk Unit :=
  modify fun p =>
    match distance? name p.scopes with
    | some distance => { p with resolution := p.resolution.note id distance }
    | none => p

/-- The name is being read in its own initializer. -/
def isUndefined (name : String) : List Names → Bool
  | names :: _ => names.lookup name == some false
  | [] => false

mutual
def walkExpr (context : Context) : Expr → Walk Unit
  | .literal _ => pure ()
  | .group inner => walkExpr context inner
  | .unary _ operand => walkExpr context operand
  | .binary left _ right => do
    walkExpr context left
    walkExpr context right
  | .logical left _ right => do
    walkExpr context left
    walkExpr context right
  | .var id name => do
    if isUndefined name.lexeme (← get).scopes then throw ⟨.ownInitializer name.lexeme, name.line⟩
    resolve id name.lexeme
  | .assign id name value => do
    walkExpr context value
    resolve id name.lexeme
  | .call callee _ arguments => do
    walkExpr context callee
    walkExprs context arguments
  | .property object _ => walkExpr context object
  | .setProperty object _ value => do
    walkExpr context value
    walkExpr context object
  | .thisRef id keyword =>
    if context.cls = .none then report ⟨.strayKeyword keyword.lexeme, keyword.line⟩
    else resolve id "this"
  | .superMethod id keyword _ =>
    if context.cls = .derived then resolve id "super"
    else report ⟨.strayKeyword keyword.lexeme, keyword.line⟩

def walkExprs (context : Context) : List Expr → Walk Unit
  | [] => pure ()
  | e :: es => do
    walkExpr context e
    walkExprs context es
end

def walkOption (context : Context) : Option Expr → Walk Unit
  | none => pure ()
  | some e => walkExpr context e

/-- The kind of an instance method's body. -/
def methodKind (name : String) : BodyKind :=
  if name = constructorName then .constructor else .method

/-- The scope that holds the receiver of a method of a class, and in a derived class what `super`
stands for. -/
def receiverNames (cls : ClassKind) : Names :=
  if cls = .derived then [("super", true), ("this", true)] else [("this", true)]

/-- Declares and defines parameters one by one. -/
def walkParameters : List Token → Walk Unit
  | [] => pure ()
  | p :: ps => do
    declare p
    define p
    walkParameters ps

/-- A class that names itself as the class it extends. -/
def reportSelfInheritance (name : Token) : Option Expr → Walk Unit
  | some (.var _ superclass) =>
    if superclass.lexeme = name.lexeme then
      report ⟨.selfInheritance name.lexeme, superclass.line⟩
    else pure ()
  | _ => pure ()

mutual
def walkStmt (context : Context) : Stmt → Walk Unit
  | .expr e => walkExpr context e
  | .print e => walkExpr context e
  | .letDecl name initializer => do
    declare name
    thenDefine name (walkOption context initializer)
  | .constDecl name initializer => do
    declare name
    thenDefine name (walkExpr context initializer)
  | .block body => inScope [] (walkStmts context body)
  | .cond condition thenBranch elseBranch => do
    walkExpr context condition
    walkStmt context thenBranch
    walkElse context elseBranch
  | .loop condition body => do
    walkExpr context condition
    walkStmt context body
  | .function declaration => do
    declare declaration.name
    define declaration.name
    walkRoutine { context with body := .function } declaration
  | .ret keyword value => do
    if context.body = .none then throw ⟨.strayReturn, keyword.line⟩
    if context.body = .constructor && value.isSome then
      report ⟨.constructorReturn, keyword.line⟩
    walkOption context value
  | .classDecl name superclass methods statics => do
    declare name
    define name
    reportSelfInheritance name superclass
    let cls := if superclass.isSome then .derived else .base
    walkOption { context with cls } superclass
    walkMethods methodKind { context with cls } methods
    walkMethods (fun _ => .method) { context with cls } statics

/-- The statements of a list, each by itself. -/
def walkStmts (context : Context) : List Stmt → Walk Unit
  | [] => pure ()
  | s :: ss => do
    isolated (walkStmt context s)
    walkStmts context ss

def walkElse (context : Context) : Option Stmt → Walk Unit
  | none => pure ()
  | some s => walkStmt context s

/-- Parameters and body share one scope. -/
def walkRoutine (context : Context) : FunctionDecl → Walk Unit
  | ⟨_, parameters, body⟩ =>
    inScope [] do
      walkParameters parameters
      walkStmts context body

/-- Each method stands in a scope of its receiver. -/
def walkMethods (kind : String → BodyKind) (context : Context) : List FunctionDecl → Walk Unit
  | [] => pure ()
  | d :: ds => do
    inScope (receiverNames context.cls)
      (walkRoutine { context with body := kind d.name.lexeme } d)
    walkMethods kind context ds
end

/-- Outside of every function and class. -/
def Context.top : Context := ⟨.none, .none⟩

/-- Analyses a program, adding to the distances known so far. -/
def analyze (resolution : Resolution) (program : List Stmt) : List StaticError × Resolution :=
  match walkStmts .top program ⟨[], [], resolution⟩ with
  | .ok _ p => (p.errors, p.resolution)
  | .error error p => (p.errors ++ [error], p.resolution)

end Scoping

end ClassScript
