import ClassScript.Object.Rendered

/-! Rendering with marks. Every object has a mark, which is set while the object is being rendered;
one that is met with its mark set is not rendered again. Nothing but the marks bounds how deep
objects lie inside each other, so a rendering is given a depth, and comes to nothing where objects
lie deeper. -/
namespace ClassScript

/-- For every object, whether it is being rendered. -/
abbrev Marks := Nat → Bool

namespace Marks

/-- No object is being rendered. -/
def clear : Marks := fun _ => false

def put (marks : Marks) (id : Nat) (mark : Bool) : Marks :=
  fun other => if other = id then mark else marks other

end Marks

/-- Steps that may set and clear marks. -/
abbrev Rendering := StateT Marks Option

namespace Rendering

/-- Sets or clears the mark of an object; gives what it was. -/
def replace (id : Nat) (mark : Bool) : Rendering Bool :=
  modifyGet fun marks => (marks id, marks.put id mark)

/-- Renders the values of fields one after the other. -/
def members (render : Value → Rendering Json) : Fields → Rendering (List (String × Json))
  | [] => return []
  | (name, value) :: fields => do
    let json ← render value
    return (name, json) :: (← members render fields)

/-- Renders an object, unless that is already being done, and the values of its fields by
`render`. -/
def object (render : Value → Rendering Json) (objects : Objects) (id : Nat) : Rendering Json := do
  if ← replace id true then return circularMark
  else
    let members ← members render (objects.fields id)
    let _ ← replace id false
    return .object members

/-- Renders a value with at most `depth` objects inside each other. -/
def value (objects : Objects) : Nat → Value → Rendering Json
  | _, .null => return .null
  | _, .bool value => return .bool value
  | _, .number value => return Number.toJson value
  | _, .string text => return .string text
  | _, .function _ code => return .string ("<fn " ++ code.name ++ ">")
  | _, .classRef c => return .string ("<class " ++ c.name ++ ">")
  | 0, .object _ _ => failure
  | depth + 1, .object id _ => object (value objects depth) objects id

end Rendering

end ClassScript
