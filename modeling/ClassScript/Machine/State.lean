import ClassScript.Machine.Sink
import ClassScript.Object.Rendered
import ClassScript.Scoping.Resolution
import ClassScript.Store.Scopes

/-! The state of a run, and the steps on it that need no program text. -/
namespace ClassScript

structure Machine where
  scopes : Scopes
  objects : Objects
  /-- The scope that declarations go to and that look-ups start from. -/
  current : ScopeId
  resolution : Resolution
  /-- The identity that the next function or class gets. -/
  nextIdentity : Nat
  sink : Sink

/-- Why a run stops early. -/
inductive Stop where
  | error (e : RuntimeError)
  /-- The program nests deeper than the run may. -/
  | tooDeep

/-- A step of a run. -/
abbrev Run := EStateM Stop Machine

namespace Machine

/-- The outermost scope. -/
def globals : ScopeId := 0

/-- The scope of a program's own declarations, inside the globals. -/
def topLevel : ScopeId := 1

/-- A machine that has run nothing. -/
def fresh (sink : Sink) : Machine where
  scopes := ⟨#[⟨[], none⟩, ⟨[], some globals⟩]⟩
  objects := .empty
  current := topLevel
  resolution := .empty
  nextIdentity := 0
  sink := sink

def fault (cause : RuntimeFault) (line : Nat) : Run α := throw (.error (.fault cause line))

/-- An operation on the scopes; what it refuses is reported on the line. -/
@[inline] def onScopes (line : Nat) (action : Scopes.Action α) : Run α := fun m =>
  let scopes := m.scopes
  let m := { m with scopes := .empty }
  match action scopes with
  | .ok a scopes => .ok a { m with scopes }
  | .error cause scopes => .error (.error (.fault cause line)) { m with scopes }

/-- An operation on the output. -/
@[inline] def onSink (action : EStateM SinkFault Sink α) : Run α := fun m =>
  let sink := m.sink
  let m := { m with sink := .unlimited }
  match action sink with
  | .ok a sink => .ok a { m with sink }
  | .error cause sink => .error (.error (.output cause)) { m with sink }

/-- Takes the steps in another scope and comes back, also after an error. -/
@[inline] def within (scope : ScopeId) (steps : Run α) : Run α := fun m =>
  let outer := m.current
  match steps { m with current := scope } with
  | .ok a m => .ok a { m with current := outer }
  | .error e m => .error e { m with current := outer }

/-- Makes a scope inside another. -/
def openScope (parent : ScopeId) (bindings : List (String × Binding)) : Run ScopeId :=
  onScopes 0 (Scopes.create ⟨bindings, some parent⟩)

/-- An identity that nothing else has. -/
def newIdentity : Run Nat :=
  modifyGet fun m => (m.nextIdentity, { m with nextIdentity := m.nextIdentity + 1 })

/-- A declaration in the current scope. -/
def define (name : Token) (value : Value) (constant : Bool) : Run Unit := do
  onScopes name.line (Scopes.define (← get).current name.lexeme value constant)

/-- The value a reference stands for: at its distance if it has one, else in the nearest scope that
binds the name. -/
def lookup (id : Nat) (name : String) (line : Nat) : Run Value := do
  let m ← get
  match m.resolution.distance? id with
  | some distance => onScopes line (Scopes.readAt m.current distance name)
  | none => onScopes line (Scopes.read m.current name)

/-- Assigns to what a reference stands for. -/
def assign (id : Nat) (name : Token) (value : Value) : Run Unit := do
  let m ← get
  let current := m.current
  match m.resolution.distance? id with
  | some distance => onScopes name.line (Scopes.assignAt current distance name.lexeme value)
  | none => onScopes name.line (Scopes.assign current name.lexeme value)

/-- A function value of its own identity. -/
def newFunction (code : Closure) : Run Value := return .function (← newIdentity) code

/-- A method as a function of its own: its scope holds the receiver, and what `super` stands for if
the defining class has a superclass. -/
def bind (found : FoundMethod) (receiver : Value) : Run Closure := do
  let this := ("this", ⟨receiver, true⟩)
  let bindings := match found.superclass with
    | some superclass => [("super", ⟨.classRef superclass, true⟩), this]
    | none => [this]
  return { found.method with scope := ← openScope found.method.scope bindings }

/-- A method bound to its receiver, as a value. -/
def bindValue (found : Option FoundMethod) (receiver : Value) : Run (Option Value) :=
  match found with
  | some found => do return some (← newFunction (← bind found receiver))
  | none => return none

/-- What a name means on an object: its own field first, then a method of its class. -/
def objectMember (id : Nat) (ofClass : Class) (name : String) : Run (Option Value) := do
  match (← get).objects.field? id name with
  | some value => return some value
  | none => bindValue (ofClass.findMethod? name) (.object id ofClass)

/-- What a name means on a class: a static method. -/
def classMember (c : Class) (name : String) : Run (Option Value) :=
  bindValue (c.findStatic? name) (.classRef c)

/-- The value of `receiver.name`. -/
def property (receiver : Value) (name : Token) : Run Value := do
  let found ← match receiver with
    | .object id ofClass => objectMember id ofClass name.lexeme
    | .classRef c => classMember c name.lexeme
    | _ => fault (.propertyTarget receiver.display) name.line
  match found with
  | some value => return value
  | none => fault (.undefinedProperty receiver.display name.lexeme) name.line

/-- Sets a field of an object. -/
def setField (id : Nat) (name : String) (value : Value) : Run Unit :=
  modify fun m => { m with objects := m.objects.set id name value }

/-- An object without fields. -/
def newObject (ofClass : Class) : Run Value :=
  modifyGet fun m => (.object m.objects.all.size ofClass, { m with objects := m.objects.push })

/-- The value of `super.method`: looked up in the superclass that `super` stands for, among the
static methods if the receiver is a class, and bound to the receiver. -/
def superMember (id : Nat) (keyword method : Token) : Run Value := do
  let superclass ← lookup id "super" keyword.line
  let receiver ← lookup id "this" keyword.line
  match superclass with
  | .classRef c =>
    let found := match receiver with
      | .classRef _ => c.findStatic? method.lexeme
      | _ => c.findMethod? method.lexeme
    match found with
    | some found => newFunction (← bind found receiver)
    | none => fault (.undefinedProperty c.name method.lexeme) method.line
  | other => fault (.notAClass other.display) keyword.line

/-- Writes a value as indented JSON, on lines of its own. -/
def print (value : Value) : Run Unit := do
  let text := (value.toJson (← get).objects).indented 0
  onSink (Sink.write (Text.encode (text ++ "\n")))

end Machine

end ClassScript
