import ClassScript.Proofs.Scoping.Distances

/-! The rules of static form: what an accepted program may not do, said of what stands in it. The
walk accepts only programs that keep the rules. -/
namespace ClassScript

/-- A variable of the name is read somewhere in the expression. -/
inductive Expr.Reads (name : String) : Expr → Prop
  | here {id : Nat} {token : Token} (h : token.lexeme = name) : Reads name (.var id token)
  | operand {e e' : Expr} (he : e' ∈ e.operands) (h : Reads name e') : Reads name e

/-- The name that a declaration declares and the expression that it gets its value from. -/
def Stmt.initializer? : Stmt → Option (Token × Expr)
  | .letDecl name (some e) | .constDecl name e => some (name, e)
  | _ => none

namespace Scoping

namespace Frame

def isRoutine : Frame → Bool
  | block _ => false
  | function _ | method _ _ _ => true

/-- An instance method of the name that constructors have. -/
def isConstructor : Frame → Bool
  | method _ isStatic d => !isStatic && d.name.lexeme == constructorName
  | block _ | function _ => false

/-- What the class of a method extends. -/
def heritage? : Frame → Option (Option Expr)
  | method superclass _ _ => some superclass
  | block _ | function _ => none

end Frame

/-- The innermost function or method around a part. -/
def routine? (around : List Enclosure) : Option Frame :=
  (around.map Enclosure.frame).find? Frame.isRoutine

/-- What the innermost class around a part extends. -/
def heritage? (around : List Enclosure) : Option (Option Expr) :=
  around.findSome? (·.frame.heritage?)

/-- The nearest method around a part whose innermost class extends this. -/
theorem heritage?_eq_some {around : List Enclosure} {superclass : Option Expr}
    (h : heritage? around = some superclass) : ∃ inner isStatic d front outer,
      around = inner ++ ⟨.method superclass isStatic d, front⟩ :: outer ∧
      ∀ c ∈ inner, c.frame.heritage? = none := by
  obtain ⟨inner, ⟨frame, front⟩, outer, rfl, hc, hi⟩ := List.findSome?_eq_some_iff.mp h
  cases frame with
  | block | function => cases hc
  | method superclass' isStatic d =>
    cases hc
    exact ⟨inner, isStatic, d, front, outer, rfl, hi⟩

/-- The rules of static form. -/
structure WellFormed (program : List Stmt) : Prop where
  /-- No block and no routine declares a name twice, parameters included. -/
  distinct : ∀ {s around frame}, Stands program (.stmt s) around → frame ∈ s.frames →
    (frame.parameters ++ Stmt.declaredBy frame.body).Nodup
  /-- Below the top level no name is read in its own initializer. -/
  initializers : ∀ {s around name e}, Stands program (.stmt s) around → around ≠ [] →
    s.initializer? = some (name, e) → ¬ e.Reads name.lexeme
  /-- Every `return` is inside some function or method. -/
  returns : ∀ {keyword value around}, Stands program (.stmt (.ret keyword value)) around →
    (routine? around).isSome
  /-- No constructor returns a value. -/
  constructors : ∀ {keyword value around frame},
    Stands program (.stmt (.ret keyword (some value))) around → routine? around = some frame →
      frame.isConstructor = false
  /-- Every `this` is inside a method of a class. -/
  receivers : ∀ {id keyword around}, Stands program (.expr (.thisRef id keyword)) around →
    (heritage? around).isSome
  /-- Every `super` has a class that extends another as the innermost class around it. -/
  superclasses : ∀ {id keyword method around},
    Stands program (.expr (.superMethod id keyword method)) around →
      ∃ extended, heritage? around = some (some extended)
  /-- No class extends its own name. -/
  heritage : ∀ {name id extended methods statics around},
    Stands program (.stmt (.classDecl name (some (.var id extended)) methods statics)) around →
      extended.lexeme ≠ name.lexeme

section Context

/-- The kind of body that a frame makes. -/
def Frame.kind : Frame → BodyKind
  | block _ => .none
  | function _ => .function
  | method _ isStatic d => if isStatic then .method else methodKind d.name.lexeme

variable (around : List Enclosure)

theorem Context.of_body : (Context.of around).body = (routine? around).elim .none Frame.kind := by
  induction around with
  | nil => rfl
  | cons c around ih =>
    obtain ⟨frame, front⟩ := c
    cases frame with
    | block => exact ih
    | function | method => rfl

theorem Context.of_cls : (Context.of around).cls = (heritage? around).elim .none classKind := by
  induction around with
  | nil => rfl
  | cons c around ih =>
    obtain ⟨frame, front⟩ := c
    cases frame with
    | block | function => exact ih
    | method => rfl

variable {around}

theorem Frame.kind_ne_none {frame : Frame} (h : frame.isRoutine) : frame.kind ≠ .none := by
  cases frame with
  | block => cases h
  | function => simp [kind]
  | method superclass isStatic d =>
    simp only [kind, methodKind]
    split_ifs <;> simp

theorem Frame.kind_eq_constructor {frame : Frame} :
    frame.kind = .constructor ↔ frame.isConstructor := by
  cases frame with
  | block | function => simp [kind, isConstructor]
  | method superclass isStatic d =>
    cases isStatic <;> by_cases hn : d.name.lexeme = constructorName <;>
      simp [kind, isConstructor, methodKind, hn]

theorem Context.of_body_eq_none : (Context.of around).body = .none ↔ routine? around = none := by
  rw [of_body]
  cases hr : routine? around with
  | none => simp
  | some frame => simpa using Frame.kind_ne_none (List.find?_some hr)

theorem Context.of_body_eq_constructor : (Context.of around).body = .constructor ↔
    ∃ frame, routine? around = some frame ∧ frame.isConstructor := by
  rw [of_body]
  cases routine? around with
  | none => simp
  | some frame => simp [Frame.kind_eq_constructor]

theorem Context.of_cls_eq_none : (Context.of around).cls = .none ↔ heritage? around = none := by
  rw [of_cls]
  cases heritage? around with
  | none => simp
  | some extended => cases extended <;> simp [classKind]

theorem Context.of_cls_eq_derived : (Context.of around).cls = .derived ↔
    ∃ extended, heritage? around = some (some extended) := by
  rw [of_cls]
  cases heritage? around with
  | none => simp
  | some extended => cases extended <;> simp [classKind]

end Context

end Scoping

end ClassScript
