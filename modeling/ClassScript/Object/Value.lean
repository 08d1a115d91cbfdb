import ClassScript.Syntax.Tree
import ClassScript.Text.Quoted

/-! Values. Functions, classes and objects have identities; a class carries the classes it descends
from, nearest first, so a method is looked up along a list. -/
namespace ClassScript

/-- A place in the store of scopes. -/
abbrev ScopeId := Nat

/-- A routine with the scope it was made in. -/
structure Closure where
  declaration : FunctionDecl
  scope : ScopeId

namespace Closure

def name (c : Closure) : String := c.declaration.name.lexeme

def arity (c : Closure) : Nat := c.declaration.arity

/-- The short form of a routine, with its number of parameters. -/
def signature (c : Closure) : String := "<fn " ++ c.name ++ "/" ++ c.arity.repr ++ ">"

end Closure

/-- Routines by name; of two with the same name the first counts. -/
abbrev MethodTable := List (String × Closure)

/-- The closures of declarations made in a scope; a later declaration hides an earlier one. -/
def MethodTable.ofDeclarations (scope : ScopeId) (declarations : List FunctionDecl) : MethodTable :=
  (declarations.map fun d => (d.name.lexeme, ⟨d, scope⟩)).reverse

/-- A class without the classes it descends from. -/
structure ClassBody where
  id : Nat
  name : String
  methods : MethodTable
  statics : MethodTable

/-- A class: its own body, and those of its ancestors from the nearest on. -/
structure Class where
  body : ClassBody
  ancestors : List ClassBody

/-- A method with the superclass of the class that defines it. -/
structure FoundMethod where
  method : Closure
  superclass : Option Class

namespace Class

/-- The class whose own body is the first of a chain. -/
def ofChain? : List ClassBody → Option Class
  | [] => none
  | body :: ancestors => some ⟨body, ancestors⟩

def chain (c : Class) : List ClassBody := c.body :: c.ancestors

def name (c : Class) : String := c.body.name

def superclass (c : Class) : Option Class := ofChain? c.ancestors

/-- The first method of the name in the tables of a chain. -/
def findIn (table : ClassBody → MethodTable) (name : String) : List ClassBody → Option FoundMethod
  | [] => none
  | body :: ancestors =>
    match (table body).lookup name with
    | some method => some ⟨method, ofChain? ancestors⟩
    | none => findIn table name ancestors

def findMethod? (c : Class) (name : String) : Option FoundMethod :=
  findIn ClassBody.methods name c.chain

def findStatic? (c : Class) (name : String) : Option FoundMethod :=
  findIn ClassBody.statics name c.chain

/-- The name of the class and that of its superclass. -/
def description (c : Class) : String :=
  let superclass := match c.superclass with
    | some superclass => "Some(" ++ Text.nameQuote superclass.name ++ ")"
    | none => "None"
  "Class \x7b name: " ++ Text.nameQuote c.name ++ ", superclass: " ++ superclass ++ ", .. \x7d"

def constructor? (c : Class) : Option FoundMethod := c.findMethod? constructorName

/-- The number of arguments that a call of the class takes. -/
def arity (c : Class) : Nat :=
  match c.constructor? with
  | some found => found.method.arity
  | none => 0

end Class

inductive Value where
  | null
  | bool (value : Bool)
  | number (value : Float)
  | string (text : String)
  | function (id : Nat) (code : Closure)
  | classRef (c : Class)
  | object (id : Nat) (ofClass : Class)

namespace Value

def ofLiteral : Literal → Value
  | .number value => number value
  | .string text => string text
  | .bool value => bool value
  | .null => null

/-- Only `null` and `false` are not. -/
def truthy : Value → Bool
  | null => false
  | bool value => value
  | _ => true

def typeName : Value → String
  | null => "null"
  | bool _ => "boolean"
  | number _ => "number"
  | string _ => "string"
  | function _ _ => "function"
  | classRef _ => "class"
  | object _ _ => "instance"

/-- Plain values are the same when they are equal; the others when they have the same identity. -/
def same : Value → Value → Bool
  | null, null => true
  | bool a, bool b => a == b
  | number a, number b => a == b
  | string a, string b => a == b
  | function i _, function j _ => i == j
  | classRef c, classRef d => c.body.id == d.body.id
  | object i _, object j _ => i == j
  | _, _ => false

def isNull : Value → Bool
  | null => true
  | _ => false

/-- The text of a value where it is joined to other text. -/
def display : Value → String
  | null => "null"
  | bool value => if value then "true" else "false"
  | number value => Number.display value
  | string text => text
  | function _ code => "<fn " ++ code.name ++ ">"
  | classRef c => c.name
  | object _ c => "<" ++ c.name ++ " instance>"

/-- What is shown of a value with an identity to those who look for faults. -/
def description? : Value → Option String
  | function _ code => some ("Function(" ++ code.signature ++ ")")
  | classRef c => some ("Class(" ++ c.description ++ ")")
  | object id c => some ("Instance(" ++ (object id c).display ++ ")")
  | _ => none

/-- The name and the arity of a value that can be called. -/
def callable? : Value → Option (String × Nat)
  | function _ code => some (code.name, code.arity)
  | classRef c => some (c.name, c.arity)
  | _ => none

end Value

end ClassScript
