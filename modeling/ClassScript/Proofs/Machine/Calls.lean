import ClassScript.Machine.Evaluation
import ClassScript.Program
import ClassScript.Proofs.Steps
import Mathlib.Logic.Relation

/-! The moments of a run. A moment is a task that the machine sets out to perform; the tasks that it
performs for it, each with the state that the earlier ones left, are its calls. -/
namespace ClassScript

namespace Machine

/-- What a machine can be asked to do. -/
inductive Task where
  | expr (e : Expr)
  | exprs (es : List Expr)
  | option (e : Option Expr)
  | superclass (e : Option Expr)
  | apply (callee : Value) (arguments : List Value)
  | invoke (code : Closure) (arguments : List Value)
  | stmt (s : Stmt)
  | stmts (ss : List Stmt)
  | declareClass (name : Token) (superclass : Option Expr) (methods statics : List FunctionDecl)

@[reducible]
def Task.Result : Task → Type
  | expr _ | option _ | apply _ _ | invoke _ _ => Value
  | exprs _ => List Value
  | superclass _ => List ClassBody
  | stmt _ | stmts _ => Signal
  | declareClass _ _ _ _ => Unit

def perform (depth : Nat) : (t : Task) → Run t.Result
  | .expr e => evaluate depth e
  | .exprs es => evaluateAll depth es
  | .option e => evaluateOption depth e
  | .superclass e => evaluateSuperclass depth e
  | .apply callee arguments => apply depth callee arguments
  | .invoke code arguments => invoke depth code arguments
  | .stmt s => execute depth s
  | .stmts ss => executeAll depth ss
  | .declareClass name superclass methods statics =>
    declareClass depth name superclass methods statics

/-- A task, the depth to which it may nest, and the machine it starts on. -/
structure Moment where
  depth : Nat
  task : Task
  machine : Machine

/-- A task that is performed directly for another. -/
inductive Calls : Moment → Moment → Prop
  | group {d m inner} : Calls ⟨d + 1, .expr (.group inner), m⟩ ⟨d, .expr inner, m⟩
  | assigned {d m id name value} :
    Calls ⟨d + 1, .expr (.assign id name value), m⟩ ⟨d, .expr value, m⟩
  | operand {d m operator operand} :
    Calls ⟨d + 1, .expr (.unary operator operand), m⟩ ⟨d, .expr operand, m⟩
  | binaryLeft {d m left operator right} :
    Calls ⟨d + 1, .expr (.binary left operator right), m⟩ ⟨d, .expr left, m⟩
  | binaryRight {d m m' left operator right v} (hl : evaluate d left m = .ok v m')
    (hc : operator.is .coalesce → v.isNull) :
    Calls ⟨d + 1, .expr (.binary left operator right), m⟩ ⟨d, .expr right, m'⟩
  | logicalLeft {d m left operator right} :
    Calls ⟨d + 1, .expr (.logical left operator right), m⟩ ⟨d, .expr left, m⟩
  | logicalRight {d m m' left operator right v} (hl : evaluate d left m = .ok v m')
    (hs : settles operator v = false) :
    Calls ⟨d + 1, .expr (.logical left operator right), m⟩ ⟨d, .expr right, m'⟩
  | callee {d m callee paren arguments} :
    Calls ⟨d + 1, .expr (.call callee paren arguments), m⟩ ⟨d, .expr callee, m⟩
  | arguments {d m m' callee paren arguments v name arity} (hc : evaluate d callee m = .ok v m')
    (hv : v.callable? = some (name, arity)) :
    Calls ⟨d + 1, .expr (.call callee paren arguments), m⟩ ⟨d, .exprs arguments, m'⟩
  | applied {d m m₁ m₂ callee paren arguments v name arity vs}
    (hc : evaluate d callee m = .ok v m₁) (hv : v.callable? = some (name, arity))
    (ha : evaluateAll d arguments m₁ = .ok vs m₂) (hn : vs.length = arity) :
    Calls ⟨d + 1, .expr (.call callee paren arguments), m⟩ ⟨d, .apply v vs, m₂⟩
  | propertyObject {d m object name} :
    Calls ⟨d + 1, .expr (.property object name), m⟩ ⟨d, .expr object, m⟩
  | setObject {d m object name value} :
    Calls ⟨d + 1, .expr (.setProperty object name value), m⟩ ⟨d, .expr object, m⟩
  | setValue {d m m' object name value id c} (ho : evaluate d object m = .ok (.object id c) m') :
    Calls ⟨d + 1, .expr (.setProperty object name value), m⟩ ⟨d, .expr value, m'⟩
  | first {d m e es} : Calls ⟨d + 1, .exprs (e :: es), m⟩ ⟨d, .expr e, m⟩
  | others {d m m' e es v} (he : evaluate d e m = .ok v m') :
    Calls ⟨d + 1, .exprs (e :: es), m⟩ ⟨d, .exprs es, m'⟩
  | construct {d m m₁ m₂ c arguments found object code} (ho : newObject c m = .ok object m₁)
    (hf : c.constructor? = some found) (hb : bind found object m₁ = .ok code m₂) :
    Calls ⟨d + 1, .apply (.classRef c) arguments, m⟩ ⟨d, .invoke code arguments, m₂⟩
  | function {d m id code arguments} :
    Calls ⟨d + 1, .apply (.function id code) arguments, m⟩ ⟨d, .invoke code arguments, m⟩
  | body {d m m₁ m₂ code arguments scope u} (ho : openScope code.scope [] m = .ok scope m₁)
    (hb : bindArguments scope code.declaration.params arguments m₁ = .ok u m₂) :
    Calls ⟨d + 1, .invoke code arguments, m⟩
      ⟨d, .stmts code.declaration.body, { m₂ with current := scope }⟩
  | expression {d m e} : Calls ⟨d + 1, .stmt (.expr e), m⟩ ⟨d, .expr e, m⟩
  | printed {d m e} : Calls ⟨d + 1, .stmt (.print e), m⟩ ⟨d, .expr e, m⟩
  | letInitializer {d m name e} : Calls ⟨d + 1, .stmt (.letDecl name e), m⟩ ⟨d, .option e, m⟩
  | constInitializer {d m name e} : Calls ⟨d + 1, .stmt (.constDecl name e), m⟩ ⟨d, .expr e, m⟩
  | block {d m m' body scope} (ho : openScope m.current [] m = .ok scope m') :
    Calls ⟨d + 1, .stmt (.block body), m⟩ ⟨d, .stmts body, { m' with current := scope }⟩
  | condition {d m condition thenBranch elseBranch} :
    Calls ⟨d + 1, .stmt (.cond condition thenBranch elseBranch), m⟩ ⟨d, .expr condition, m⟩
  | thenBranch {d m m' condition thenBranch elseBranch v}
    (hc : evaluate d condition m = .ok v m') (ht : v.truthy = true) :
    Calls ⟨d + 1, .stmt (.cond condition thenBranch elseBranch), m⟩ ⟨d, .stmt thenBranch, m'⟩
  | elseBranch {d m m' condition thenBranch elseBranch v}
    (hc : evaluate d condition m = .ok v m') (ht : v.truthy = false) :
    Calls ⟨d + 1, .stmt (.cond condition thenBranch (some elseBranch)), m⟩ ⟨d, .stmt elseBranch, m'⟩
  | loopCondition {d m condition body} :
    Calls ⟨d + 1, .stmt (.loop condition body), m⟩ ⟨d, .expr condition, m⟩
  | loopBody {d m m' condition body v} (hc : evaluate d condition m = .ok v m')
    (ht : v.truthy = true) : Calls ⟨d + 1, .stmt (.loop condition body), m⟩ ⟨d, .stmt body, m'⟩
  | again {d m m₁ m₂ condition body v} (hc : evaluate d condition m = .ok v m₁)
    (ht : v.truthy = true) (hb : execute d body m₁ = .ok .normal m₂) :
    Calls ⟨d + 1, .stmt (.loop condition body), m⟩ ⟨d, .stmt (.loop condition body), m₂⟩
  | returned {d m keyword e} : Calls ⟨d + 1, .stmt (.ret keyword e), m⟩ ⟨d, .option e, m⟩
  | classDecl {d m name superclass methods statics} :
    Calls ⟨d + 1, .stmt (.classDecl name superclass methods statics), m⟩
      ⟨d, .declareClass name superclass methods statics, m⟩
  | statement {d m s ss} : Calls ⟨d + 1, .stmts (s :: ss), m⟩ ⟨d, .stmt s, m⟩
  | rest {d m m' s ss} (hs : execute d s m = .ok .normal m') :
    Calls ⟨d + 1, .stmts (s :: ss), m⟩ ⟨d, .stmts ss, m'⟩
  | present {d m e} : Calls ⟨d + 1, .option (some e), m⟩ ⟨d, .expr e, m⟩
  | extended {d m m' name superclass methods statics u}
    (hd : define name .null false m = .ok u m') :
    Calls ⟨d + 1, .declareClass name superclass methods statics, m⟩ ⟨d, .superclass superclass, m'⟩
  | ancestor {d m e} : Calls ⟨d + 1, .superclass (some e), m⟩ ⟨d, .expr e, m⟩

theorem Calls.depth_eq {now next : Moment} (hc : Calls now next) : now.depth = next.depth + 1 := by
  cases hc <;> rfl

/-- The moment occurs when the program is executed on the machine, to any depth. -/
def Occurs (program : List Stmt) (m : Machine) (now : Moment) : Prop :=
  ∃ depth, Relation.ReflTransGen Calls ⟨depth, .stmts program, m⟩ now

/-- Every statement is executed to its end, one after the other. -/
inductive Completes : Nat → List Stmt → Machine → Machine → Prop
  | nil {d m} : Completes d [] m m
  | cons {d m m₁ m₂ s ss} (first : execute d s m = .ok .normal m₁) (rest : Completes d ss m₁ m₂) :
    Completes (d + 1) (s :: ss) m m₂

theorem Completes.of_normal {d : Nat} {ss : List Stmt} {m m' : Machine}
    (h : executeAll d ss m = .ok .normal m') : Completes d ss m m' := by
  induction ss generalizing d m with
  | nil =>
    cases d <;> cases h
    exact .nil
  | cons s ss ih =>
    cases d with
    | zero => cases h
    | succ d =>
      obtain ⟨signal, m₁, hs, h⟩ := bind_ok.mp h
      cases signal with
      | normal => exact .cons hs (ih h)
      | returned value => cases h

/-- One statement more is executed behind the others, as deep as is left by then. -/
theorem Completes.snoc {d d' : Nat} {s : Stmt} {ss : List Stmt} {m m₁ m₂ : Machine}
    (h : Completes d ss m m₁) (hd : d = ss.length + (d' + 1))
    (hs : execute d' s m₁ = .ok .normal m₂) : Completes d (ss ++ [s]) m m₂ := by
  induction h with
  | nil =>
    obtain rfl : _ = d' + 1 := hd.trans (Nat.zero_add _)
    exact .cons hs .nil
  | @cons d _ _ _ _ ss first _ ih =>
    refine .cons first (ih ?_ hs)
    simp only [List.length_cons] at hd
    omega

/-- The source is read as the program, scope analysis accepts it, and the moment occurs when a fresh
machine executes it. -/
structure Happens (source : List UInt8) (sink : Sink) (program : List Stmt) (now : Moment) :
    Prop where
  parsed : parse source = .ok program
  accepted : ((fresh sink).analyze program).1 = []
  occurs : Occurs program ((fresh sink).analyze program).2 now

end Machine

end ClassScript
