import ClassScript.Machine.Fault
import ClassScript.Object.Value
import ClassScript.Store.Named

/-! The store of scopes. Scopes form a tree by links to the scope around them, which is always an
older one; a binding belongs to one scope, and is either a variable or a constant. -/
namespace ClassScript

structure Binding where
  value : Value
  constant : Bool

/-- The bindings of a scope, and the scope around it. -/
structure Scope where
  bindings : List (String × Binding)
  parent : Option ScopeId

namespace Scope

def find? (scope : Scope) (name : String) : Option Binding := scope.bindings.lookup name

/-- Adds a binding. -/
def add (scope : Scope) (name : String) (binding : Binding) : Scope :=
  { scope with bindings := (name, binding) :: scope.bindings }

/-- Gives every binding of the name another value. -/
def write (scope : Scope) (name : String) (value : Value) : Scope :=
  { scope with
    bindings := scope.bindings.map fun (other, binding) =>
      if other = name then (other, { binding with value }) else (other, binding) }

@[simp] theorem find?_add (scope : Scope) (name other : String) (binding : Binding) :
    (scope.add name binding).find? other =
      if other = name then some binding else scope.find? other := by
  simp [find?, add, lookup_cons]

@[simp] theorem find?_write (scope : Scope) (name other : String) (value : Value) :
    (scope.write name value).find? other =
      if other = name then (scope.find? other).map ({ · with value })
      else scope.find? other := by
  unfold find? write
  induction scope.bindings with
  | nil => simp
  | cons entry bindings ih =>
    obtain ⟨first, binding⟩ := entry
    by_cases written : first = name
    · by_cases found : other = first <;> simp_all [lookup_cons]
    · by_cases found : other = first <;> simp_all [lookup_cons, Ne.symm written]

end Scope

structure Scopes where
  all : Array Scope

namespace Scopes

/-- An operation on the store, which may refuse and then changes nothing. -/
abbrev Action := EStateM RuntimeFault Scopes

def empty : Scopes := ⟨#[]⟩

def scope? (t : Scopes) (id : ScopeId) : Option Scope := t.all[id]?

/-- The binding of a name in one scope. -/
def binding? (t : Scopes) (id : ScopeId) (name : String) : Option Binding :=
  (t.scope? id).bind (·.find? name)

/-- The scope around a scope. -/
def parent? (t : Scopes) (id : ScopeId) : Option ScopeId := (t.scope? id).bind (·.parent)

/-- The scope that lies a number of steps further out. -/
def ancestor? (t : Scopes) (id : ScopeId) : Nat → Option ScopeId
  | 0 => some id
  | distance + 1 => (t.parent? id).bind fun parent => t.ancestor? parent distance

/-- The nearest scope, from a scope outward, that binds a name. -/
def holder? (t : Scopes) (name : String) (id : ScopeId) : Option ScopeId :=
  if (t.binding? id name).isSome then some id
  else
    match t.parent? id with
    | some parent => if parent < id then t.holder? name parent else none
    | none => none
termination_by id

/-- Adds a scope, and gives its place. -/
def create (scope : Scope) : Action ScopeId :=
  modifyGet fun t => (t.all.size, ⟨t.all.push scope⟩)

/-- Changes one scope. -/
def update (id : ScopeId) (change : Scope → Scope) : Action Unit :=
  modify fun t => ⟨t.all.modify id change⟩

/-- Binds a name that the scope does not bind yet. -/
def define (id : ScopeId) (name : String) (value : Value) (constant : Bool) : Action Unit := do
  if ((← get).binding? id name).isSome then throw (.duplicate name)
  update id (·.add name ⟨value, constant⟩)

/-- The value of a name in one scope. -/
def readIn (id : ScopeId) (name : String) : Action Value := do
  match (← get).binding? id name with
  | some binding => pure binding.value
  | none => throw (.undefined name)

/-- Assigns to a variable of one scope. -/
def assignIn (id : ScopeId) (name : String) (value : Value) : Action Unit := do
  match (← get).binding? id name with
  | some binding =>
    if binding.constant then throw (.constant name)
    update id (·.write name value)
  | none => throw (.undefined name)

/-- The value of a name in the nearest scope that binds it. -/
def read (id : ScopeId) (name : String) : Action Value := do
  match (← get).holder? name id with
  | some holder => readIn holder name
  | none => throw (.undefined name)

/-- Assigns to a name in the nearest scope that binds it. -/
def assign (id : ScopeId) (name : String) (value : Value) : Action Unit := do
  match (← get).holder? name id with
  | some holder => assignIn holder name value
  | none => throw (.undefined name)

/-- The value of a name in the scope at a distance. -/
def readAt (id : ScopeId) (distance : Nat) (name : String) : Action Value := do
  match (← get).ancestor? id distance with
  | some scope => readIn scope name
  | none => throw (.undefined name)

/-- Assigns to a variable of the scope at a distance. -/
def assignAt (id : ScopeId) (distance : Nat) (name : String) (value : Value) : Action Unit := do
  match (← get).ancestor? id distance with
  | some scope => assignIn scope name value
  | none => throw (.undefined name)

end Scopes

end ClassScript
