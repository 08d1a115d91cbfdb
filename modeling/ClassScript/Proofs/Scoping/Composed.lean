import ClassScript.Proofs.Scoping.Walk

/-! What every walk has because its steps have it. Walks are made of a few steps, one after the
other, in scopes of their own, or each by itself. -/
namespace ClassScript

namespace Scoping

/-- The innermost scope, if there is one, declares the name. -/
def declared (name : String) (scopes : List Names) : Bool :=
  scopes.head?.any fun names => (names.lookup name).isSome

theorem declare_eq (name : Token) (p : Progress) :
    declare name p = if declared name.lexeme p.scopes then
        .error ⟨.duplicate name.lexeme, name.line⟩ p
      else .ok () { p with scopes := marked name.lexeme false p.scopes } := by
  obtain ⟨scopes, errors, resolution⟩ := p
  cases scopes with
  | nil => rfl
  | cons names outer =>
    rw [declare, get_bind]
    by_cases hd : (names.lookup name.lexeme).isSome
    · simp only [declared, List.head?_cons, Option.any_some, hd, if_true]
      rfl
    · simp only [declared, List.head?_cons, Option.any_some, hd]
      rfl

/-- A property that the steps of a walk have, and that the ways of putting walks together keep. -/
structure Composed (P : Walk Unit → Prop) : Prop where
  pure : P (pure ())
  throw (error : StaticError) : P (throw error)
  bind {w v : Walk Unit} (hw : P w) (hv : P v) : P (w >>= fun _ => v)
  report (error : StaticError) : P (report error)
  resolve (id : Nat) (name : String) : P (resolve id name)
  declare (name : Token) : P (declare name)
  define (name : Token) : P (define name)
  unlessUndefined (name : String) (error : StaticError) {w : Walk Unit} (hw : P w) :
    P (get >>= fun p => if isUndefined name p.scopes then
      (MonadExcept.throw error : Walk Unit) >>= fun _ => w else w)
  thenDefine (name : Token) {w : Walk Unit} (hw : P w) : P (thenDefine name w)
  inScope (names : Names) {w : Walk Unit} (hw : P w) : P (inScope names w)
  isolated {w : Walk Unit} (hw : P w) : P (isolated w)

namespace Composed

variable {P : Walk Unit → Prop} (h : Composed P)

include h

mutual

theorem walkExpr (context : Context) : (e : Expr) → P (Scoping.walkExpr context e)
  | .literal _ => by
    rw [Scoping.walkExpr]
    exact h.pure
  | .group inner => by
    rw [Scoping.walkExpr]
    exact walkExpr context inner
  | .unary _ operand => by
    rw [Scoping.walkExpr]
    exact walkExpr context operand
  | .binary left _ right => by
    rw [Scoping.walkExpr]
    exact h.bind (walkExpr context left) (walkExpr context right)
  | .logical left _ right => by
    rw [Scoping.walkExpr]
    exact h.bind (walkExpr context left) (walkExpr context right)
  | .var id name => by
    rw [Scoping.walkExpr]
    exact h.unlessUndefined _ _ (h.resolve _ _)
  | .assign id name value => by
    rw [Scoping.walkExpr]
    exact h.bind (walkExpr context value) (h.resolve _ _)
  | .call callee _ arguments => by
    rw [Scoping.walkExpr]
    exact h.bind (walkExpr context callee) (walkExprs context arguments)
  | .property object _ => by
    rw [Scoping.walkExpr]
    exact walkExpr context object
  | .setProperty object _ value => by
    rw [Scoping.walkExpr]
    exact h.bind (walkExpr context value) (walkExpr context object)
  | .thisRef id keyword => by
    rw [Scoping.walkExpr]
    split
    · exact h.report _
    · exact h.resolve _ _
  | .superMethod id keyword _ => by
    rw [Scoping.walkExpr]
    split
    · exact h.resolve _ _
    · exact h.report _

theorem walkExprs (context : Context) : (es : List Expr) → P (Scoping.walkExprs context es)
  | [] => by
    rw [Scoping.walkExprs]
    exact h.pure
  | e :: es => by
    rw [Scoping.walkExprs]
    exact h.bind (walkExpr context e) (walkExprs context es)

end

theorem walkOption (context : Context) (e : Option Expr) : P (Scoping.walkOption context e) := by
  cases e with
  | none => exact h.pure
  | some e => exact h.walkExpr context e

theorem reportSelfInheritance (name : Token) (superclass : Option Expr) :
    P (Scoping.reportSelfInheritance name superclass) := by
  unfold Scoping.reportSelfInheritance
  split
  · split
    · exact h.report _
    · exact h.pure
  · exact h.pure

theorem checkReturn (context : Context) (keyword : Token) (value : Option Expr) :
    P (Scoping.checkReturn context keyword value) := by
  have second : P (if context.body = .constructor && value.isSome then
      Scoping.report ⟨.constructorReturn, keyword.line⟩ else Pure.pure ()) := by
    split
    · exact h.report _
    · exact h.pure
  by_cases hb : context.body = .none
  · simp only [Scoping.checkReturn, hb, if_true]
    exact h.bind (h.throw _) (by simpa [hb] using second)
  · simp only [Scoping.checkReturn, hb, if_false]
    exact second

theorem walkParameters (ps : List Token) : P (Scoping.walkParameters ps) := by
  induction ps with
  | nil => exact h.pure
  | cons p ps ih => exact h.bind (h.declare p) (h.bind (h.define p) ih)

mutual

theorem walkStmt (context : Context) : (s : Stmt) → P (Scoping.walkStmt context s)
  | .expr e => by
    rw [Scoping.walkStmt]
    exact h.walkExpr context e
  | .print e => by
    rw [Scoping.walkStmt]
    exact h.walkExpr context e
  | .letDecl name initializer => by
    rw [Scoping.walkStmt]
    exact h.bind (h.declare name) (h.thenDefine name (h.walkOption context initializer))
  | .constDecl name initializer => by
    rw [Scoping.walkStmt]
    exact h.bind (h.declare name) (h.thenDefine name (h.walkExpr context initializer))
  | .block body => by
    rw [Scoping.walkStmt]
    exact h.inScope [] (walkStmts context body)
  | .cond condition thenBranch elseBranch => by
    rw [Scoping.walkStmt]
    exact h.bind (h.walkExpr context condition)
      (h.bind (walkStmt context thenBranch) (walkElse context elseBranch))
  | .loop condition body => by
    rw [Scoping.walkStmt]
    exact h.bind (h.walkExpr context condition) (walkStmt context body)
  | .function declaration => by
    rw [Scoping.walkStmt]
    exact h.bind (h.declare _) (h.bind (h.define _) (walkRoutine _ declaration))
  | .ret keyword value => by
    rw [walkStmt_ret]
    exact h.bind (h.checkReturn context keyword value) (h.walkOption context value)
  | .classDecl name superclass methods statics => by
    rw [Scoping.walkStmt]
    refine h.bind (h.declare _) (h.bind (h.define _) (h.bind (h.reportSelfInheritance _ _) ?_))
    exact h.bind (h.walkOption _ superclass)
      (h.bind (walkMethods _ _ methods) (walkMethods _ _ statics))

theorem walkStmts (context : Context) : (ss : List Stmt) → P (Scoping.walkStmts context ss)
  | [] => by
    rw [Scoping.walkStmts]
    exact h.pure
  | s :: ss => by
    rw [Scoping.walkStmts]
    exact h.bind (h.isolated (walkStmt context s)) (walkStmts context ss)

theorem walkElse (context : Context) : (s : Option Stmt) → P (Scoping.walkElse context s)
  | none => by
    rw [Scoping.walkElse]
    exact h.pure
  | some s => by
    rw [Scoping.walkElse]
    exact walkStmt context s

theorem walkRoutine (context : Context) : (d : FunctionDecl) → P (Scoping.walkRoutine context d)
  | ⟨_, parameters, body⟩ => by
    rw [Scoping.walkRoutine]
    exact h.inScope [] (h.bind (h.walkParameters parameters) (walkStmts context body))

theorem walkMethods (kind : String → BodyKind) (context : Context) :
    (ds : List FunctionDecl) → P (Scoping.walkMethods kind context ds)
  | [] => by
    rw [Scoping.walkMethods]
    exact h.pure
  | d :: ds => by
    rw [Scoping.walkMethods]
    exact h.bind (h.inScope _ (walkRoutine _ d)) (walkMethods kind context ds)

end

end Composed

section Level

variable {p q : Progress}

/-- There are as many scopes as before, and only the innermost may be another. -/
structure Level (p q : Progress) : Prop where
  outer : q.scopes.tail = p.scopes.tail
  height : q.scopes.length = p.scopes.length

instance : IsPreorder Progress Level where
  refl _ := ⟨rfl, rfl⟩
  trans _ _ _ h₁ h₂ := ⟨h₂.outer.trans h₁.outer, h₂.height.trans h₁.height⟩

theorem Level.of_notes {is : List Nat} {w : Walk Unit} (h : Leads (Notes is) w) : Leads Level w :=
  h.imp fun _ _ h => ⟨by rw [h.scopes], by rw [h.scopes]⟩

theorem mark_level (name : String) (defined : Bool) : Leads Level (mark name defined) := by
  intro p
  rw [mark_eq]
  cases hp : p.scopes <;> exact ⟨by simp [hp, marked], by simp [hp, marked]⟩

theorem declare_level (name : Token) : Leads Level (declare name) := by
  refine Leads.get_bind fun p => ?_
  split
  · split
    · exact (Leads.throw _).bind fun _ => mark_level _ _
    · exact mark_level _ _
  · exact mark_level _ _

/-- However a walk ends, it has left the scopes that it opened. -/
theorem Level.composed : Composed (Leads Level) where
  pure := Leads.pure _
  throw _ := Leads.throw _
  bind hw hv := hw.bind fun _ => hv
  report error := of_notes (@report_notes [] error)
  resolve id name := of_notes (@resolve_notes [id] id name List.mem_cons_self)
  declare := declare_level
  define name := mark_level _ _
  unlessUndefined name error w hw := Leads.get_bind fun p => by
    split
    · exact (Leads.throw _).bind fun _ => hw
    · exact hw
  thenDefine name w hw p := by
    have step := hw p
    have last (q : Progress) : Level q (ending (define name q)) := mark_level _ _ q
    simp only [thenDefine]
    cases hr : w p with
    | ok u q =>
      rw [hr] at step
      exact trans_of Level step (last q)
    | error e q =>
      rw [hr] at step
      exact trans_of Level step (last q)
  inScope names w hw p := by
    simp only [inScope]
    cases w { p with scopes := names :: p.scopes } <;> exact ⟨rfl, rfl⟩
  isolated {w} hw p := by
    have step := hw p
    simp only [isolated]
    cases hr : w p with
    | ok u q =>
      rw [hr] at step
      exact step
    | error e q =>
      rw [hr] at step
      exact ⟨step.outer, step.height⟩

end Level

end Scoping

end ClassScript
