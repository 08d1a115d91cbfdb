import ClassScript.Scoping.Analysis

/-! A resolver: scope analysis with all of its context in one state. Scopes are opened and closed,
and the kinds of the body and of the class are set and put back, by single steps. A step that fails
leaves the state as it is at that moment; only a list of statements puts it back. Each expression
that is taken up is written down with the scopes around it. -/
namespace ClassScript

namespace Scoping

/-- An expression that was taken up, with the scopes of that moment. -/
structure Sight where
  expression : Expr
  scopes : List Names

structure Resolver where
  /-- The innermost scope first. -/
  scopes : List Names
  body : BodyKind
  cls : ClassKind
  errors : List StaticError
  resolution : Resolution
  seen : List Sight

namespace Resolver

abbrev Step := EStateM StaticError Resolver

def new (resolution : Resolution) : Resolver := ⟨[], .none, .none, [], resolution, []⟩

def report (error : StaticError) : Step Unit :=
  modify fun r => { r with errors := r.errors ++ [error] }

def see (e : Expr) : Step Unit := modify fun r => { r with seen := r.seen ++ [⟨e, r.scopes⟩] }

def beginScope : Step Unit := modify fun r => { r with scopes := [] :: r.scopes }

def endScope : Step Unit := modify fun r => { r with scopes := r.scopes.tail }

def setBody (body : BodyKind) : Step Unit := modify fun r => { r with body }

def setClass (cls : ClassKind) : Step Unit := modify fun r => { r with cls }

/-- Keeps the outermost scopes, up to a number. -/
def truncate (height : Nat) (scopes : List Names) : List Names :=
  scopes.drop (scopes.length - height)

/-- Puts a name into the innermost scope, if there is one. -/
def insert (name : String) (defined : Bool) : Step Unit :=
  modify fun r =>
    match r.scopes with
    | [] => r
    | names :: outer => { r with scopes := ((name, defined) :: names) :: outer }

def declare (name : Token) : Step Unit := do
  match (← get).scopes with
  | names :: _ =>
    if (names.lookup name.lexeme).isSome then throw ⟨.duplicate name.lexeme, name.line⟩
    insert name.lexeme false
  | [] => pure ()

def define (name : Token) : Step Unit := insert name.lexeme true

def resolveLocal (id : Nat) (name : String) : Step Unit :=
  modify fun r =>
    match distance? name r.scopes with
    | some distance => { r with resolution := r.resolution.note id distance }
    | none => r

/-- The outcome of a step, whose failure does not end what follows. -/
def attempt (step : Step Unit) : Step (Except StaticError Unit) := fun r =>
  match step r with
  | .ok u r => .ok (.ok u) r
  | .error error r => .ok (.error error) r

/-- Fails if the outcome is a failure. -/
def settle : Except StaticError Unit → Step Unit
  | .ok u => pure u
  | .error error => throw error

mutual
def resolveExpr (e : Expr) : Step Unit := do
  see e
  match e with
  | .literal _ => pure ()
  | .group inner => resolveExpr inner
  | .unary _ operand => resolveExpr operand
  | .binary left _ right | .logical left _ right =>
    resolveExpr left
    resolveExpr right
  | .var id name =>
    if isUndefined name.lexeme (← get).scopes then throw ⟨.ownInitializer name.lexeme, name.line⟩
    resolveLocal id name.lexeme
  | .assign id name value =>
    resolveExpr value
    resolveLocal id name.lexeme
  | .call callee _ arguments =>
    resolveExpr callee
    resolveExprs arguments
  | .property object _ => resolveExpr object
  | .setProperty object _ value =>
    resolveExpr value
    resolveExpr object
  | .thisRef id keyword =>
    if (← get).cls = .none then report ⟨.strayKeyword keyword.lexeme, keyword.line⟩
    else resolveLocal id "this"
  | .superMethod id keyword _ =>
    if (← get).cls = .derived then resolveLocal id "super"
    else report ⟨.strayKeyword keyword.lexeme, keyword.line⟩

def resolveExprs : List Expr → Step Unit
  | [] => pure ()
  | e :: es => do
    resolveExpr e
    resolveExprs es
end

def resolveOption : Option Expr → Step Unit
  | none => pure ()
  | some e => resolveExpr e

/-- Resolves an initializer. The name is defined in any case, so that what follows can use it. -/
def resolveInitializer (name : Token) (initializer : Option Expr) : Step Unit := do
  let resolved ← attempt (resolveOption initializer)
  define name
  settle resolved

/-- Resolves what is returned, which a constructor may not do. -/
def resolveReturned (keyword : Token) : Option Expr → Step Unit
  | none => pure ()
  | some e => do
    if (← get).body = .constructor then report ⟨.constructorReturn, keyword.line⟩
    resolveExpr e

def resolveParameters : List Token → Step Unit
  | [] => pure ()
  | p :: ps => do
    declare p
    define p
    resolveParameters ps

/-- A class that names itself as the class it extends. -/
def reportSelfInheritance (name : Token) : Expr → Step Unit
  | .var _ superclass =>
    if superclass.lexeme = name.lexeme then
      report ⟨.selfInheritance name.lexeme, superclass.line⟩
    else pure ()
  | _ => pure ()

/-- Resolves what a class extends, as a part of a derived class. -/
def resolveSuperclass (name : Token) : Option Expr → Step Unit
  | none => pure ()
  | some superclass => do
    reportSelfInheritance name superclass
    setClass .derived
    resolveExpr superclass

/-- Opens the scope of a receiver. -/
def beginReceiver : Step Unit := do
  beginScope
  insert "this" true
  if (← get).cls = .derived then insert "super" true

/-- Takes the step. If it fails, its scopes are closed, the kinds are put back, and its error is
reported. -/
def isolate (step : Step Unit) : Step Unit := do
  let outer ← get
  match ← attempt step with
  | .ok _ => pure ()
  | .error error =>
    modify fun r =>
      { r with
        scopes := truncate outer.scopes.length r.scopes, body := outer.body, cls := outer.cls }
    report error

mutual
def resolveStmt : Stmt → Step Unit
  | .expr e | .print e => resolveExpr e
  | .letDecl name initializer => do
    declare name
    resolveInitializer name initializer
  | .constDecl name initializer => do
    declare name
    resolveInitializer name (some initializer)
  | .block body => do
    beginScope
    resolveStatements body
    endScope
  | .cond condition thenBranch elseBranch => do
    resolveExpr condition
    resolveStmt thenBranch
    resolveElse elseBranch
  | .loop condition body => do
    resolveExpr condition
    resolveStmt body
  | .function declaration => do
    declare declaration.name
    define declaration.name
    resolveFunction .function declaration
  | .ret keyword value => do
    if (← get).body = .none then throw ⟨.strayReturn, keyword.line⟩
    resolveReturned keyword value
  | .classDecl name superclass methods statics => do
    let enclosing := (← get).cls
    declare name
    define name
    setClass .base
    resolveSuperclass name superclass
    resolveMethods methodKind methods
    resolveMethods (fun _ => .method) statics
    setClass enclosing

/-- The statements of a list, each by itself. -/
def resolveStatements : List Stmt → Step Unit
  | [] => pure ()
  | s :: ss => do
    isolate (resolveStmt s)
    resolveStatements ss

def resolveElse : Option Stmt → Step Unit
  | none => pure ()
  | some s => resolveStmt s

/-- Parameters and body share one scope. -/
def resolveFunction (kind : BodyKind) : FunctionDecl → Step Unit
  | ⟨_, parameters, body⟩ => do
    let enclosing := (← get).body
    setBody kind
    beginScope
    resolveParameters parameters
    resolveStatements body
    endScope
    setBody enclosing

/-- Each method stands in a scope of its receiver. -/
def resolveMethods (kind : String → BodyKind) : List FunctionDecl → Step Unit
  | [] => pure ()
  | d :: ds => do
    beginReceiver
    resolveFunction (kind d.name.lexeme) d
    endScope
    resolveMethods kind ds
end

end Resolver

end Scoping

end ClassScript
