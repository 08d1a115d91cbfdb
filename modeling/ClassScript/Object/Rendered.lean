import ClassScript.Json
import ClassScript.Store.Objects

/-! Values as JSON trees. An object becomes the members it has, and where it contains itself, the
inner occurrence becomes a mark. -/
namespace ClassScript

/-- Stands for an object inside itself. -/
def circularMark : Json := .string "[Circular]"

/-- The number of objects that are not being rendered. -/
def unrendered (objects : Objects) (path : List Nat) : Nat :=
  (List.range objects.all.size).countP fun id => !path.contains id

theorem countP_lt_countP {p q : Nat → Bool} (le : ∀ n, q n → p n) {l : List Nat} {id : Nat}
    (mem : id ∈ l) (counts : p id) (drops : q id = false) : l.countP q < l.countP p := by
  induction l with
  | nil => simp at mem
  | cons n l ih =>
    have tail : l.countP q ≤ l.countP p := List.countP_mono_left fun n _ => le n
    by_cases same : n = id
    · subst same; simp [counts, drops]; omega
    · have tailLt := ih (by simpa [Ne.symm same] using mem)
      have headLe : (if q n then 1 else 0) ≤ (if p n then 1 else 0) := by
        by_cases counted : q n
        · simp [counted, le n counted]
        · simp [counted]
      simp only [List.countP_cons]
      omega

theorem unrendered_lt {objects : Objects} {path : List Nat} {id : Nat}
    (inStore : id < objects.all.size) (fresh : path.contains id = false) :
    unrendered objects (id :: path) < unrendered objects path :=
  countP_lt_countP (by simp_all) (List.mem_range.2 inStore) (by simpa using fresh) (by simp)

/-- A number: whole and small as a whole number, any other as a double. -/
def Number.toJson (value : Float) : Json :=
  match Number.jsonWhole? value with
  | some n => .whole n
  | none => .double value

mutual
/-- The tree of a value inside the objects of a path. -/
def Value.toJsonIn (objects : Objects) (path : List Nat) : Value → Json
  | .null => .null
  | .bool value => .bool value
  | .number value => Number.toJson value
  | .string text => .string text
  | .function _ code => .string ("<fn " ++ code.name ++ ">")
  | .classRef c => .string ("<class " ++ c.name ++ ">")
  | .object id _ =>
    if _ : path.contains id then circularMark
    else
      match _ : objects.all[id]? with
      | some fields => .object (membersIn objects (id :: path) fields)
      | none => .object []
termination_by (unrendered objects path, 0)
decreasing_by
  have fresh : path.contains id = false := by simpa using ‹¬path.contains id = true›
  exact .left _ _ (unrendered_lt (Array.getElem?_eq_some_iff.1 ‹_›).1 fresh)

def membersIn (objects : Objects) (path : List Nat) : Fields → List (String × Json)
  | [] => []
  | (name, value) :: fields =>
    (name, value.toJsonIn objects path) :: membersIn objects path fields
termination_by fields => (unrendered objects path, fields.length + 1)
decreasing_by
  · exact .right _ (by omega)
  · exact .right _ (by simp)
end

/-- The tree of a value. -/
def Value.toJson (objects : Objects) (value : Value) : Json := value.toJsonIn objects []

end ClassScript
