import ClassScript.Object.Value
import ClassScript.Store.Named

/-! The store of objects: for each the fields that were set on it, in the order of their names. -/
namespace ClassScript

/-- Fields in the strict order of their names. -/
abbrev Fields := List (String × Value)

/-- Sets a field; a field of this name loses its value. -/
def Fields.set (name : String) (value : Value) : Fields → Fields
  | [] => [(name, value)]
  | (other, old) :: fields =>
    if name < other then (name, value) :: (other, old) :: fields
    else if name = other then (name, value) :: fields
    else (other, old) :: Fields.set name value fields

@[simp] theorem Fields.lookup_set (fields : Fields) (name other : String) (value : Value) :
    (Fields.set name value fields).lookup other =
      if other = name then some value else fields.lookup other := by
  induction fields with
  | nil => simp [Fields.set, lookup_cons]
  | cons field fields ih =>
    obtain ⟨first, old⟩ := field
    by_cases before : name < first
    · simp [Fields.set, before, lookup_cons]
    · by_cases here : name = first
      · subst here
        by_cases same : other = name <;> simp [Fields.set, lookup_cons, same]
      · by_cases same : other = first
        · simp [Fields.set, before, here, same, Ne.symm here]
        · simp [Fields.set, before, here, lookup_cons, same, ih]

structure Objects where
  all : Array Fields

namespace Objects

def empty : Objects := ⟨#[]⟩

def fields (s : Objects) (id : Nat) : Fields := s.all[id]?.getD []

def field? (s : Objects) (id : Nat) (name : String) : Option Value := (s.fields id).lookup name

/-- Adds an object without fields. -/
def push (s : Objects) : Objects := ⟨s.all.push []⟩

def set (s : Objects) (id : Nat) (name : String) (value : Value) : Objects :=
  ⟨s.all.modify id (Fields.set name value)⟩

/-- A field has the value that was set last, or it had its value before. -/
theorem field?_set {s : Objects} {id other : Nat} {name x : String} {value v : Value}
    (h : (s.set id name value).field? other x = some v) : v = value ∨
    s.field? other x = some v := by
  simp only [field?, fields, set, Array.getElem?_modify] at h ⊢
  split at h
  · cases hf : s.all[other]? with
    | none => simp [hf] at h
    | some fields =>
      simp only [hf, Option.map_some, Option.getD_some, Fields.lookup_set] at h ⊢
      split at h
      · exact .inl (Option.some.inj h).symm
      · exact .inr h
  · exact .inr h

theorem field?_push {s : Objects} {id : Nat} {x : String} {v : Value}
    (h : s.push.field? id x = some v) : s.field? id x = some v := by
  simp only [field?, fields, push, Array.getElem?_push] at h ⊢
  split at h
  · simp at h
  · exact h

end Objects

end ClassScript
