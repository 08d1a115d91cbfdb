import ClassScript.Proofs.Scoping.Visits

/-! What the text of a program says of its parts: the blocks, functions and methods that each
statement and each expression stands in, from the inside out, and the names that the scopes of these
declare no later than the part. -/
namespace ClassScript

namespace Expr

/-- The expressions that an expression is made of. -/
def operands : Expr → List Expr
  | literal _ | var _ _ | thisRef _ _ | superMethod _ _ _ => []
  | assign _ _ e | unary _ e | group e | property e _ => [e]
  | binary left _ right | logical left _ right => [left, right]
  | call callee _ arguments => callee :: arguments
  | setProperty object _ value => [object, value]

theorem sizeOf_operand {e e' : Expr} (h : e' ∈ e.operands) : sizeOf e' < sizeOf e := by
  cases e with
  | literal | var | thisRef | superMethod => cases h
  | assign | unary | group | property | binary | logical | setProperty =>
    simp only [operands, List.mem_cons, List.not_mem_nil, or_false] at h
    rcases h with rfl | rfl <;> simp +arith
  | call callee paren arguments =>
    rcases List.mem_cons.mp h with rfl | h
    · simp +arith
    · have := List.sizeOf_lt_of_mem h
      simp +arith
      omega

theorem induction_on_operands {motive : Expr → Prop}
    (step : ∀ e, (∀ e' ∈ e.operands, motive e') → motive e) (e : Expr) : motive e :=
  step e fun e' he =>
    have _smaller := sizeOf_operand he
    induction_on_operands step e'
termination_by sizeOf e
decreasing_by exact _smaller

theorem referencesAll_eq (es : List Expr) : referencesAll es = es.flatMap references := by
  induction es with
  | nil => simp [referencesAll]
  | cons e es ih => rw [referencesAll, ih, List.flatMap_cons]

/-- The references of an expression are those of its operands, and behind them its own. -/
theorem references_eq (e : Expr) :
    e.references = e.operands.flatMap references ++ e.reference?.toList := by
  cases e <;> simp [references, operands, reference?, referencesAll_eq]

end Expr

namespace Scoping

/-- What has a body in a scope of its own. -/
inductive Frame where
  | block (body : List Stmt)
  | function (d : FunctionDecl)
  /-- A method, with what its class extends. -/
  | method (superclass : Option Expr) (isStatic : Bool) (d : FunctionDecl)

namespace Frame

def body : Frame → List Stmt
  | block body => body
  | function d | method _ _ d => d.body

/-- The names that the scope has before those of the body. -/
def parameters : Frame → List String
  | block _ => []
  | function d | method _ _ d => d.params.map Token.lexeme

/-- The scope around that of a method holds its receiver, and what `super` stands for if the class
extends another. -/
def receiver : Frame → List (List String)
  | block _ | function _ => []
  | method superclass _ _ => [if superclass.isSome then ["super", "this"] else ["this"]]

end Frame

end Scoping

namespace Stmt

/-- The name that a declaration declares. -/
def declares? : Stmt → Option String
  | letDecl name _ | constDecl name _ | classDecl name _ _ _ => some name.lexeme
  | function d => some d.name.lexeme
  | expr _ | print _ | block _ | cond _ _ _ | loop _ _ | ret _ _ => none

/-- The names that statements declare in the scope they stand in. -/
def declaredBy (ss : List Stmt) : List String := ss.filterMap declares?

/-- The expressions of a statement outside of its branches and bodies. -/
def expressions : Stmt → List Expr
  | expr e | print e | constDecl _ e | cond e _ _ | loop e _ => [e]
  | letDecl _ e | ret _ e | classDecl _ e _ _ => e.toList
  | block _ | function _ => []

/-- The statements of a statement that stand in the same scope. -/
def branches : Stmt → List Stmt
  | cond _ thenBranch elseBranch => thenBranch :: elseBranch.toList
  | loop _ body => [body]
  | expr _ | print _ | letDecl _ _ | constDecl _ _ | block _ | function _ | ret _ _
  | classDecl _ _ _ _ => []

/-- What a statement has in scopes of their own. -/
def frames : Stmt → List Scoping.Frame
  | block body => [.block body]
  | function d => [.function d]
  | classDecl _ superclass methods statics =>
    methods.map (.method superclass false) ++ statics.map (.method superclass true)
  | expr _ | print _ | letDecl _ _ | constDecl _ _ | cond _ _ _ | loop _ _ | ret _ _ => []

theorem sizeOf_branch {s b : Stmt} (h : b ∈ s.branches) : sizeOf b < sizeOf s := by
  cases s with
  | cond condition thenBranch elseBranch =>
    simp only [branches, List.mem_cons, Option.mem_toList] at h
    rcases h with rfl | h
    · simp +arith
    · cases h
      simp +arith
  | loop condition body =>
    cases List.mem_singleton.mp h
    simp +arith
  | expr | print | letDecl | constDecl | block | function | ret | classDecl => cases h

theorem sizeOf_framed {s b : Stmt} {frame : Scoping.Frame} (h : frame ∈ s.frames)
    (hb : b ∈ frame.body) : sizeOf b < sizeOf s := by
  have declared {d : FunctionDecl} (hb : b ∈ d.body) : sizeOf b < sizeOf d := by
    obtain ⟨name, params, body⟩ := d
    have := List.sizeOf_lt_of_mem hb
    simp +arith at this ⊢
    omega
  cases s with
  | block body =>
    cases List.mem_singleton.mp h
    have := List.sizeOf_lt_of_mem hb
    simp +arith [Scoping.Frame.body] at this ⊢
    omega
  | function d =>
    cases List.mem_singleton.mp h
    have := declared hb
    simp +arith
    omega
  | classDecl name superclass methods statics =>
    rcases List.mem_append.mp h with h | h
    all_goals
      obtain ⟨d, hd, rfl⟩ := List.mem_map.mp h
      have := declared hb
      have := List.sizeOf_lt_of_mem hd
      simp +arith
      omega
  | expr | print | letDecl | constDecl | cond | loop | ret => cases h

theorem induction_on_parts {motive : Stmt → Prop}
    (step : ∀ s, (∀ b ∈ s.branches, motive b) →
      (∀ frame ∈ s.frames, ∀ b ∈ frame.body, motive b) → motive s) (s : Stmt) : motive s :=
  step s
    (fun b hb =>
      have _smaller := sizeOf_branch hb
      induction_on_parts step b)
    fun _ hf b hb =>
      have _smaller := sizeOf_framed hf hb
      induction_on_parts step b
termination_by sizeOf s
decreasing_by all_goals exact _smaller

theorem referencesAll_eq (ss : List Stmt) : referencesAll ss = ss.flatMap references := by
  induction ss with
  | nil => simp [referencesAll]
  | cons s ss ih => rw [referencesAll, ih, List.flatMap_cons]

/-- The references of a statement are those of its expressions, its branches and its bodies. -/
theorem references_eq (s : Stmt) :
    s.references = s.expressions.flatMap Expr.references ++ (s.branches.flatMap references ++
      s.frames.flatMap fun frame => referencesAll frame.body) := by
  have option (e : Option Expr) : Expr.referencesOption e = e.toList.flatMap Expr.references := by
    cases e <;> simp [Expr.referencesOption]
  have routines (frame : FunctionDecl → Scoping.Frame) (hf : ∀ d, (frame d).body = d.body)
      (ds : List FunctionDecl) : FunctionDecl.referencesAll ds =
        (ds.map frame).flatMap fun frame => referencesAll frame.body := by
    induction ds with
    | nil => simp [FunctionDecl.referencesAll]
    | cons d ds ih =>
      obtain ⟨name, params, body⟩ := d
      rw [FunctionDecl.referencesAll, ih, FunctionDecl.references, List.map_cons, List.flatMap_cons,
        hf]
  cases s with
  | expr | print | letDecl | constDecl | ret =>
    simp [references, expressions, branches, frames, option]
  | block body => simp [references, expressions, branches, frames, Scoping.Frame.body]
  | cond condition thenBranch elseBranch =>
    cases elseBranch <;> simp [references, referencesOption, expressions, branches, frames]
  | loop condition body => simp [references, expressions, branches, frames]
  | function d =>
    obtain ⟨name, params, body⟩ := d
    simp [references, FunctionDecl.references, expressions, branches, frames, Scoping.Frame.body]
  | classDecl name superclass methods statics =>
    rw [references, routines (.method superclass false) fun _ => rfl,
      routines (.method superclass true) fun _ => rfl, option, frames, List.flatMap_append,
      List.append_assoc]
    rfl

end Stmt

namespace Scoping

/-- What a part of a program stands in, with the statements of its body up to the one that the part
belongs to. -/
structure Enclosure where
  frame : Frame
  front : List Stmt

namespace Enclosure

/-- The scopes of an enclosure, from the inside out, with the names that they declare no later than
the part: the parameters, what the statements in front of the part and around it declare, and what a
receiver is called. -/
def scopes (c : Enclosure) : List (List String) :=
  (c.frame.parameters ++ Stmt.declaredBy c.front) :: c.frame.receiver

end Enclosure

/-- The number of scopes in front of the first that declares the name, from the inside out. -/
def lexicalDistance? (name : String) (around : List Enclosure) : Option Nat :=
  (around.flatMap Enclosure.scopes).findIdx? (name ∈ ·)

/-- The part stands in the program inside of these enclosures, the innermost first. -/
inductive Stands (program : List Stmt) : Fragment → List Enclosure → Prop
  | topLevel {s} (h : s ∈ program) : Stands program (.stmt s) []
  | inside {outer around frame front s behind} (h : Stands program (.stmt outer) around)
      (hf : frame ∈ outer.frames) (hb : frame.body = front ++ s :: behind) :
      Stands program (.stmt s) (⟨frame, front ++ [s]⟩ :: around)
  | branch {s b around} (h : Stands program (.stmt s) around) (hb : b ∈ s.branches) :
      Stands program (.stmt b) around
  | expression {s e around} (h : Stands program (.stmt s) around) (he : e ∈ s.expressions) :
      Stands program (.expr e) around
  | operand {e e' around} (h : Stands program (.expr e) around) (he : e' ∈ e.operands) :
      Stands program (.expr e') around

namespace Stands

variable {program : List Stmt} {around : List Enclosure} {reference : Reference}

theorem node_of_expr {e : Expr} (h : Stands program (.expr e) around)
    (hr : reference ∈ e.references) :
    ∃ e', e'.reference? = some reference ∧ Stands program (.expr e') around := by
  induction e using Expr.induction_on_operands with
  | step e ih =>
    rw [Expr.references_eq, List.mem_append, List.mem_flatMap, Option.mem_toList] at hr
    rcases hr with ⟨e', he, hr⟩ | hr
    · exact ih e' he (h.operand he) hr
    · exact ⟨e, hr, h⟩

theorem node_of_stmt {s : Stmt} (h : Stands program (.stmt s) around)
    (hr : reference ∈ s.references) :
    ∃ e around', e.reference? = some reference ∧ Stands program (.expr e) around' := by
  induction s using Stmt.induction_on_parts generalizing around with
  | step s ihb ihf =>
    simp only [Stmt.references_eq s, Stmt.referencesAll_eq, List.mem_append, List.mem_flatMap] at hr
    rcases hr with ⟨e, he, hr⟩ | ⟨b, hb, hr⟩ | ⟨frame, hf, b, hb, hr⟩
    · obtain ⟨e', hr, hs⟩ := (h.expression he).node_of_expr hr
      exact ⟨e', around, hr, hs⟩
    · exact ihb b hb (h.branch hb) hr
    · obtain ⟨front, behind, hs⟩ := List.append_of_mem hb
      exact ihf frame hf b hb (h.inside hf hs) hr

/-- Every reference of the program is that of a node in it. -/
theorem node (hr : reference ∈ Stmt.referencesAll program) :
    ∃ e around, e.reference? = some reference ∧ Stands program (.expr e) around := by
  rw [Stmt.referencesAll_eq] at hr
  obtain ⟨s, hs, hr⟩ := List.mem_flatMap.mp hr
  exact node_of_stmt (.topLevel hs) hr

end Stands

end Scoping

end ClassScript
