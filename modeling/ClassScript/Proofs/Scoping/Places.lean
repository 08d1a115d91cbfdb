import ClassScript.Proofs.Scoping.Walk
import ClassScript.Syntax.References
import Mathlib.Logic.Relation

/-! The places that a walk comes to. A place is a part of the program together with what the walk
knows when it gets there, and with the names that each of the scopes around the part declares in
all. -/
namespace ClassScript

namespace Scoping

/-- A part of a program that the walk takes as a whole. -/
inductive Fragment where
  | expr (e : Expr)
  | exprs (es : List Expr)
  | stmt (s : Stmt)
  | stmts (ss : List Stmt)
  | routine (d : FunctionDecl)
  | methods (kind : String → BodyKind) (ds : List FunctionDecl)

namespace Fragment

def walk (context : Context) : Fragment → Walk Unit
  | expr e => walkExpr context e
  | exprs es => walkExprs context es
  | stmt s => walkStmt context s
  | stmts ss => walkStmts context ss
  | routine d => walkRoutine context d
  | methods kind ds => walkMethods kind context ds

def references : Fragment → List Reference
  | expr e => e.references
  | exprs es => Expr.referencesAll es
  | stmt s => s.references
  | stmts ss => Stmt.referencesAll ss
  | routine d => d.references
  | methods _ ds => FunctionDecl.referencesAll ds

/-- The identities of the references in a fragment. -/
def ids (f : Fragment) : List Nat := identities f.references

def Proper : Fragment → Prop
  | expr _ | exprs _ => True
  | stmt s => s.Proper
  | stmts ss => Stmt.ProperAll ss
  | routine d => d.Proper
  | methods _ ds => FunctionDecl.ProperAll ds

/-- The names that a fragment declares in the innermost scope around it. -/
def declared : Fragment → List String
  | stmt s => s.declared
  | stmts ss => Stmt.declaredAll ss
  | expr _ | exprs _ | routine _ | methods _ _ => []

theorem walk_grows (context : Context) (f : Fragment) : Leads (Grows f.ids) (f.walk context) := by
  cases f with
  | expr e => exact Grows.of_notes (walkExpr_notes context e)
  | exprs es => exact Grows.of_notes (walkExprs_notes context es)
  | stmt s => exact walkStmt_grows context s
  | stmts ss => exact walkStmts_grows context ss
  | routine d => exact walkRoutine_grows context d
  | methods kind ds => exact walkMethods_grows kind context ds

end Fragment

structure Place where
  context : Context
  /-- For each scope around the fragment the names that its body declares, here or elsewhere. -/
  declared : List (List String)
  progress : Progress
  fragment : Fragment

namespace Place

/-- A part that the walk comes to first. -/
def first (P : Place) (f : Fragment) : Place := { P with fragment := f }

/-- A part that the walk comes to after other steps, if they end without an error. -/
def after (P : Place) (steps : Walk Unit) (f : Fragment) : List Place :=
  match steps P.progress with
  | .ok _ q => [{ P with progress := q, fragment := f }]
  | .error _ _ => []

/-- A place in a new innermost scope, which has some names already and declares others later. -/
def inside (P : Place) (names : Names) (declared : List String) : Place :=
  { P with
    declared := declared :: P.declared
    progress := { P.progress with scopes := names :: P.progress.scopes } }

end Place

/-- The names of the scope of a receiver. -/
def receiverWords (cls : ClassKind) : List String := (receiverNames cls).map Prod.fst

/-- The names that the scope of a call declares. -/
def routineNames (d : FunctionDecl) : List String :=
  d.params.map Token.lexeme ++ Stmt.declaredAll d.body

def classKind (superclass : Option Expr) : ClassKind :=
  if superclass.isSome then .derived else .base

/-- What is done with the heading of a class. -/
def openClass (name : Token) (superclass : Option Expr) : Walk Unit := do
  declare name
  define name
  reportSelfInheritance name superclass

/-- The parts of a place that the walk comes to directly, each with the progress made by then. -/
def Place.parts (P : Place) : List Place :=
  match P.fragment with
  | .expr e =>
    match e with
    | .literal _ | .var _ _ | .thisRef _ _ | .superMethod _ _ _ => []
    | .group inner => [P.first (.expr inner)]
    | .unary _ operand => [P.first (.expr operand)]
    | .assign _ _ value => [P.first (.expr value)]
    | .property object _ => [P.first (.expr object)]
    | .binary left _ right =>
      P.first (.expr left) :: P.after (walkExpr P.context left) (.expr right)
    | .logical left _ right =>
      P.first (.expr left) :: P.after (walkExpr P.context left) (.expr right)
    | .call callee _ arguments =>
      P.first (.expr callee) :: P.after (walkExpr P.context callee) (.exprs arguments)
    | .setProperty object _ value =>
      P.first (.expr value) :: P.after (walkExpr P.context value) (.expr object)
  | .exprs [] => []
  | .exprs (e :: es) => P.first (.expr e) :: P.after (walkExpr P.context e) (.exprs es)
  | .stmt s =>
    match s with
    | .expr e | .print e => [P.first (.expr e)]
    | .letDecl name initializer =>
      initializer.toList.flatMap fun e => P.after (declare name) (.expr e)
    | .constDecl name initializer => P.after (declare name) (.expr initializer)
    | .block body => [(P.inside [] (Stmt.declaredAll body)).first (.stmts body)]
    | .cond condition thenBranch elseBranch =>
      P.first (.expr condition) ::
        (P.after (walkExpr P.context condition) (.stmt thenBranch) ++
          elseBranch.toList.flatMap fun s => P.after
            (walkExpr P.context condition >>= fun _ => walkStmt P.context thenBranch) (.stmt s))
    | .loop condition body =>
      P.first (.expr condition) :: P.after (walkExpr P.context condition) (.stmt body)
    | .function declaration =>
      Place.after { P with context := { P.context with body := .function } }
        (declare declaration.name >>= fun _ => define declaration.name) (.routine declaration)
    | .ret keyword value =>
      value.toList.flatMap fun e => P.after (checkReturn P.context keyword value) (.expr e)
    | .classDecl name superclass methods statics =>
      let C : Place := { P with context := { P.context with cls := classKind superclass } }
      (superclass.toList.flatMap fun e => C.after (openClass name superclass) (.expr e)) ++
        (C.after (openClass name superclass >>= fun _ => walkOption C.context superclass)
            (.methods methodKind methods) ++
          C.after ((openClass name superclass >>= fun _ => walkOption C.context superclass)
              >>= fun _ => walkMethods methodKind C.context methods)
            (.methods (fun _ => .method) statics))
  | .stmts [] => []
  | .stmts (s :: ss) =>
    P.first (.stmt s) :: P.after (isolated (walkStmt P.context s)) (.stmts ss)
  | .routine d =>
    (P.inside [] (routineNames d)).after (walkParameters d.params) (.stmts d.body)
  | .methods _ [] => []
  | .methods kind (d :: ds) =>
    let C : Place := { P with context := { P.context with body := kind d.name.lexeme } }
    (C.inside (receiverNames P.context.cls) (receiverWords P.context.cls)).first (.routine d) ::
      P.after (inScope (receiverNames P.context.cls) (walkRoutine C.context d)) (.methods kind ds)

/-- Where the walk of a program starts, with nothing known. -/
def Place.start (program : List Stmt) : Place := ⟨.top, [], ⟨[], [], .empty⟩, .stmts program⟩

/-- The walk of the program comes to the place. -/
def Visits (program : List Stmt) : Place → Prop :=
  Relation.ReflTransGen (fun P Q => Q ∈ P.parts) (.start program)

theorem Place.mem_after {P Q : Place} {steps : Walk Unit} {f : Fragment} :
    Q ∈ P.after steps f ↔ ∃ q, steps P.progress = .ok () q ∧
      Q = { P with progress := q, fragment := f } := by
  unfold after
  split <;> simp_all

theorem walkStmt_classDecl (context : Context) (name : Token) (superclass : Option Expr)
    (methods statics : List FunctionDecl) :
    walkStmt context (.classDecl name superclass methods statics) =
      (((openClass name superclass
        >>= fun _ => walkOption { context with cls := classKind superclass } superclass)
        >>= fun _ => walkMethods methodKind { context with cls := classKind superclass } methods)
        >>= fun _ => walkMethods (fun _ => .method) { context with cls := classKind superclass }
          statics) := by
  rw [walkStmt]
  simp only [openClass, bind_assoc]
  rfl

theorem openClass_grows (name : Token) (superclass : Option Expr) :
    Leads (Grows []) (openClass name superclass) :=
  (declare_grows _).bind fun _ => (mark_grows _ _).bind fun _ =>
    Grows.of_notes (reportSelfInheritance_notes name superclass)

theorem openClass_scopes {name : Token} {superclass : Option Expr} {p q : Progress}
    (h : openClass name superclass p = .ok () q) : q.scopes = declaring p.scopes name.lexeme := by
  obtain ⟨_, m, hd, h⟩ := bind_ok.mp h
  obtain ⟨_, m', hm, hr⟩ := bind_ok.mp h
  obtain ⟨-, rfl⟩ := declare_ok hd
  obtain rfl := define_ok hm
  have reported : Leads (Notes []) (reportSelfInheritance name superclass) :=
    reportSelfInheritance_notes name superclass
  exact (reported.ok hr).scopes

end Scoping

end ClassScript
