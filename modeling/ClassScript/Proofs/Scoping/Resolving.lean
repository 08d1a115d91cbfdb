import ClassScript.Proofs.Scoping.Composed
import ClassScript.Proofs.Scoping.Places
import ClassScript.Scoping.Resolver

/-! A resolver does what a walk does. Where the walk goes on, the resolver is in the same state;
where the walk gives up a statement, the resolver may be left with scopes and kinds from further
inside, and these are gone when the list goes on that the statement stands in. -/
namespace ClassScript

namespace Scoping

open Resolver (Step)

variable {a b c : Context} {w w' : Walk Unit} {v v' : Step Unit}

/-- The resolver where the walk is. -/
def Context.resolver (c : Context) (p : Progress) (seen : List Sight) : Resolver :=
  ⟨p.scopes, c.body, c.cls, p.errors, p.resolution, seen⟩

section

variable (p : Progress) (seen : List Sight)

@[simp] theorem Context.resolver_scopes : (c.resolver p seen).scopes = p.scopes := rfl

@[simp] theorem Context.resolver_body : (c.resolver p seen).body = c.body := rfl

@[simp] theorem Context.resolver_cls : (c.resolver p seen).cls = c.cls := rfl

end

theorem Resolver.attempt_of_ok {v : Step Unit} {r s : Resolver} {u : Unit} (h : v r = .ok u s) :
    Resolver.attempt v r = .ok (.ok u) s := by
  rw [Resolver.attempt, h]

theorem Resolver.attempt_of_error {v : Step Unit} {r s : Resolver} {error : StaticError}
    (h : v r = .error error s) : Resolver.attempt v r = .ok (.error error) s := by
  rw [Resolver.attempt, h]

theorem Resolver.insert_eq (name : String) (defined : Bool) (r : Resolver) :
    Resolver.insert name defined r = .ok () { r with scopes := marked name defined r.scopes } := by
  obtain ⟨scopes, body, cls, errors, resolution, seen⟩ := r
  cases scopes <;> rfl

theorem Resolver.truncate_append {opened scopes : List Names} {height : Nat}
    (h : scopes.length = height) : Resolver.truncate height (opened ++ scopes) = scopes := by
  rw [Resolver.truncate, List.length_append, h, Nat.add_sub_cancel, List.drop_left]

/-- The outcomes are the same, in the same state. -/
inductive Same (c : Context) :
    EStateM.Result StaticError Progress Unit → EStateM.Result StaticError Resolver Unit → Prop
  | done (q : Progress) (seen : List Sight) : Same c (.ok () q) (.ok () (c.resolver q seen))
  | failed (error : StaticError) (q : Progress) (seen : List Sight) :
    Same c (.error error q) (.error error (c.resolver q seen))

/-- The outcomes are the same, but where they are errors the resolver has more scopes open. -/
inductive Alike (c : Context) :
    EStateM.Result StaticError Progress Unit → EStateM.Result StaticError Resolver Unit → Prop
  | done (q : Progress) (seen : List Sight) : Alike c (.ok () q) (.ok () (c.resolver q seen))
  | failed {error : StaticError} {q : Progress} {r : Resolver} (errors : r.errors = q.errors)
    (resolution : r.resolution = q.resolution) (opened : List Names)
    (scopes : r.scopes = opened ++ q.scopes) : Alike c (.error error q) (.error error r)

/-- The resolver's step does what the walk does. -/
def Mirrors (c : Context) (w : Walk Unit) (v : Step Unit) : Prop :=
  ∀ p seen, Same c (w p) (v (c.resolver p seen))

/-- The resolver's step does what the walk does, and goes from one context to another. -/
def Follows (a b : Context) (w : Walk Unit) (v : Step Unit) : Prop :=
  ∀ p seen, Alike b (w p) (v (a.resolver p seen))

namespace Mirrors

theorem follows (h : Mirrors c w v) : Follows c c w v := by
  intro p seen
  have step := h p seen
  cases hw : w p <;> generalize hv : v (c.resolver p seen) = y at step <;> rw [hw] at step <;>
    cases step
  · exact .done _ _
  · exact .failed rfl rfl [] rfl

theorem pure : Mirrors c (pure ()) (pure ()) := fun p seen => .done p seen

theorem bind (hw : Mirrors c w v) (hw' : Mirrors c w' v') :
    Mirrors c (w >>= fun _ => w') (v >>= fun _ => v') := by
  intro p seen
  have first := hw p seen
  cases hx : w p <;> generalize hy : v (c.resolver p seen) = y at first <;> rw [hx] at first <;>
    cases first
  · rw [bind_of_ok hx, bind_of_ok hy]
    exact hw' _ _
  · rw [bind_of_error hx, bind_of_error hy]
    exact .failed _ _ _

/-- To take up an expression changes nothing else. -/
theorem see (e : Expr) (h : Mirrors c w v) : Mirrors c w (Resolver.see e >>= fun _ => v) :=
  fun p seen => h p (seen ++ [(⟨e, p.scopes⟩ : Sight)])

theorem report (error : StaticError) : Mirrors c (report error) (Resolver.report error) :=
  fun _ seen => .done _ seen

theorem resolve (id : Nat) (name : String) :
    Mirrors c (resolve id name) (Resolver.resolveLocal id name) := by
  intro p seen
  simp only [Scoping.resolve, Resolver.resolveLocal, Context.resolver, modify_eq]
  cases distance? name p.scopes <;> exact .done _ seen

theorem insert (name : String) (defined : Bool) :
    Mirrors c (mark name defined) (Resolver.insert name defined) := by
  intro p seen
  rw [mark_eq, Resolver.insert_eq]
  exact .done _ seen

theorem declare (name : Token) : Mirrors c (declare name) (Resolver.declare name) := by
  rintro ⟨scopes, errors, resolution⟩ seen
  cases scopes with
  | nil => exact .done _ seen
  | cons names outer =>
    rw [Scoping.declare, Resolver.declare, get_bind, get_bind]
    by_cases hd : (names.lookup name.lexeme).isSome
    · simp only [Context.resolver, hd, if_true]
      exact .failed _ _ seen
    · simp only [Context.resolver, hd]
      exact .done _ seen

theorem define (name : Token) : Mirrors c (define name) (Resolver.define name) := insert _ _

/-- Steps that are chosen by what the resolver is in. -/
theorem get_bind {choose : Resolver → Step Unit}
    (h : ∀ p seen, Same c (w p) (choose (c.resolver p seen) (c.resolver p seen))) :
    Mirrors c w (get >>= choose) := h

mutual

theorem resolveExpr (c : Context) : (e : Expr) → Mirrors c (walkExpr c e) (Resolver.resolveExpr e)
  | .literal _ => by
    rw [walkExpr, Resolver.resolveExpr]
    exact .see _ pure
  | .group inner => by
    rw [walkExpr, Resolver.resolveExpr]
    exact .see _ (resolveExpr c inner)
  | .unary _ operand => by
    rw [walkExpr, Resolver.resolveExpr]
    exact .see _ (resolveExpr c operand)
  | .binary left _ right => by
    rw [walkExpr, Resolver.resolveExpr]
    exact .see _ (bind (resolveExpr c left) (resolveExpr c right))
  | .logical left _ right => by
    rw [walkExpr, Resolver.resolveExpr]
    exact .see _ (bind (resolveExpr c left) (resolveExpr c right))
  | .var id name => by
    rw [walkExpr, Resolver.resolveExpr]
    refine .see _ (get_bind fun p seen => ?_)
    rw [ClassScript.get_bind, Context.resolver_scopes]
    by_cases hu : isUndefined name.lexeme p.scopes
    · rw [if_pos hu, if_pos hu]
      exact .failed _ _ seen
    · rw [if_neg hu, if_neg hu]
      exact resolve id name.lexeme p seen
  | .assign id name value => by
    rw [walkExpr, Resolver.resolveExpr]
    exact .see _ (bind (resolveExpr c value) (resolve _ _))
  | .call callee _ arguments => by
    rw [walkExpr, Resolver.resolveExpr]
    exact .see _ (bind (resolveExpr c callee) (resolveExprs c arguments))
  | .property object _ => by
    rw [walkExpr, Resolver.resolveExpr]
    exact .see _ (resolveExpr c object)
  | .setProperty object _ value => by
    rw [walkExpr, Resolver.resolveExpr]
    exact .see _ (bind (resolveExpr c value) (resolveExpr c object))
  | .thisRef id keyword => by
    rw [walkExpr, Resolver.resolveExpr]
    refine .see _ (get_bind fun p seen => ?_)
    rw [Context.resolver_cls]
    by_cases hc : c.cls = .none
    · rw [if_pos hc, if_pos hc]
      exact report _ p seen
    · rw [if_neg hc, if_neg hc]
      exact resolve id "this" p seen
  | .superMethod id keyword _ => by
    rw [walkExpr, Resolver.resolveExpr]
    refine .see _ (get_bind fun p seen => ?_)
    rw [Context.resolver_cls]
    by_cases hc : c.cls = .derived
    · rw [if_pos hc, if_pos hc]
      exact resolve id "super" p seen
    · rw [if_neg hc, if_neg hc]
      exact report _ p seen

theorem resolveExprs (c : Context) :
    (es : List Expr) → Mirrors c (walkExprs c es) (Resolver.resolveExprs es)
  | [] => by
    rw [walkExprs, Resolver.resolveExprs]
    exact pure
  | e :: es => by
    rw [walkExprs, Resolver.resolveExprs]
    exact bind (resolveExpr c e) (resolveExprs c es)

end

theorem resolveOption (e : Option Expr) :
    Mirrors c (walkOption c e) (Resolver.resolveOption e) := by
  cases e with
  | none => exact pure
  | some e => exact resolveExpr c e

/-- The name is defined behind its initializer, whether that failed or not. -/
theorem resolveInitializer (name : Token) (initializer : Option Expr) :
    Mirrors c (thenDefine name (walkOption c initializer))
      (Resolver.resolveInitializer name initializer) := by
  intro p seen
  have first := resolveOption (c := c) initializer p seen
  rw [Resolver.resolveInitializer]
  cases hx : walkOption c initializer p <;>
    generalize hy : Resolver.resolveOption initializer (c.resolver p seen) = y at first <;>
    rw [hx] at first <;> cases first
  · rw [bind_of_ok (Resolver.attempt_of_ok hy), Resolver.define,
      bind_of_ok (Resolver.insert_eq _ _ _)]
    simp only [thenDefine, hx, Scoping.define, mark_eq]
    exact .done _ _
  · rw [bind_of_ok (Resolver.attempt_of_error hy), Resolver.define,
      bind_of_ok (Resolver.insert_eq _ _ _)]
    simp only [thenDefine, hx, Scoping.define, mark_eq]
    exact .failed _ _ _

theorem resolveParameters (ps : List Token) :
    Mirrors c (walkParameters ps) (Resolver.resolveParameters ps) := by
  induction ps with
  | nil => exact pure
  | cons p ps ih => exact bind (declare p) (bind (define p) ih)

theorem reportSelfInheritance (name : Token) (superclass : Expr) :
    Mirrors c (reportSelfInheritance name (some superclass))
      (Resolver.reportSelfInheritance name superclass) := by
  cases superclass with
  | var id superclass =>
    rw [Scoping.reportSelfInheritance, Resolver.reportSelfInheritance]
    split
    · exact report _
    · exact pure
  | literal | assign | binary | unary | logical | group | call | property | setProperty | thisRef
  | superMethod => exact pure

theorem resolveReturned (keyword : Token) (value : Option Expr) (hb : c.body ≠ .none) :
    Mirrors c (checkReturn c keyword value >>= fun _ => walkOption c value)
      (Resolver.resolveReturned keyword value) := by
  cases value with
  | none =>
    simp only [checkReturn, hb, if_false, Option.isSome_none, Bool.and_false]
    exact pure
  | some e =>
    refine get_bind fun p seen => ?_
    rw [Context.resolver_body]
    by_cases hc : c.body = .constructor
    · simp only [checkReturn, hc, decide_true, Option.isSome_some, Bool.and_self, if_true]
      exact bind (report _) (resolveExpr c e) p seen
    · simp only [checkReturn, hb, if_false, hc, decide_false, Bool.false_and]
      exact resolveExpr c e p seen

/-- Where a list of statements goes on, whatever was opened inside is closed, and the kinds are
those of the list. -/
theorem isolate (hl : Leads Level w) (hw : Follows c c w v) :
    Mirrors c (isolated w) (Resolver.isolate v) := by
  intro p seen
  have step := hw p seen
  have level := hl p
  rw [Resolver.isolate, ClassScript.get_bind]
  cases hx : w p <;> generalize hy : v (c.resolver p seen) = y at step <;>
    rw [hx] at step level <;> cases step
  · rw [bind_of_ok (Resolver.attempt_of_ok hy)]
    simp only [isolated, hx]
    exact .done _ _
  · rename_i error q r opened errors resolution scopes
    rw [ending_error] at level
    rw [bind_of_ok (Resolver.attempt_of_error hy)]
    simp only [isolated, hx]
    have restored :
        (⟨Resolver.truncate p.scopes.length r.scopes, c.body, c.cls, r.errors, r.resolution,
          r.seen⟩ : Resolver) = c.resolver q r.seen := by
      rw [scopes, Resolver.truncate_append level.height, errors, resolution, Context.resolver]
    have reported := report (c := c) error q r.seen
    rw [← restored] at reported
    exact reported

end Mirrors

namespace Follows

theorem bind (hw : Follows a b w v) (hw' : Follows b c w' v') :
    Follows a c (w >>= fun _ => w') (v >>= fun _ => v') := by
  intro p seen
  have first := hw p seen
  cases hx : w p <;> generalize hy : v (a.resolver p seen) = y at first <;> rw [hx] at first <;>
    cases first
  · rw [bind_of_ok hx, bind_of_ok hy]
    exact hw' _ _
  · rw [bind_of_error hx, bind_of_error hy]
    exact .failed ‹_› ‹_› _ ‹_›

theorem setBody (body : BodyKind) :
    Follows c { c with body } (pure ()) (Resolver.setBody body) := fun p seen => .done p seen

theorem setClass (cls : ClassKind) :
    Follows c { c with cls } (pure ()) (Resolver.setClass cls) := fun p seen => .done p seen

/-- A scope is opened and closed again. -/
theorem inScope {names : Names} {enter : Step Unit} (hl : Leads Level w) (hw : Follows c c w v)
    (he : ∀ p seen, enter (c.resolver p seen) =
      .ok () (c.resolver { p with scopes := names :: p.scopes } seen)) :
    Follows c c (inScope names w) (enter >>= fun _ => v >>= fun _ => Resolver.endScope) := by
  intro p seen
  have step := hw { p with scopes := names :: p.scopes } seen
  have level := hl { p with scopes := names :: p.scopes }
  rw [bind_of_ok (he p seen)]
  simp only [Scoping.inScope]
  cases hx : w { p with scopes := names :: p.scopes } <;>
    generalize hy : v (c.resolver { p with scopes := names :: p.scopes } seen) = y at step <;>
    rw [hx] at step level <;> cases step
  · rename_i q seen'
    have outer : p.scopes = q.scopes.tail := level.outer.symm
    rw [bind_of_ok hy]
    simp only [outer]
    exact .done _ seen'
  · rename_i error q r opened errors resolution scopes
    rw [ending_error] at level
    rw [bind_of_error hy]
    obtain ⟨top, outer, hq⟩ := List.exists_cons_of_length_eq_add_one level.height
    have around : outer = p.scopes := by
      have := level.outer
      rwa [hq] at this
    refine .failed errors resolution (opened ++ [top]) ?_
    rw [scopes, hq, around, List.append_assoc]
    rfl

theorem beginScope (p : Progress) (seen : List Sight) : Resolver.beginScope (c.resolver p seen) =
    .ok () (c.resolver { p with scopes := [] :: p.scopes } seen) := rfl

theorem beginReceiver (p : Progress) (seen : List Sight) :
    Resolver.beginReceiver (c.resolver p seen) =
    .ok () (c.resolver { p with scopes := receiverNames c.cls :: p.scopes } seen) := by
  obtain ⟨body, cls⟩ := c
  cases cls <;> rfl

/-- The kinds are put back behind a routine that goes on. -/
theorem routine {kind : BodyKind} (hl : Leads Level w)
    (hw : Follows { c with body := kind } { c with body := kind } w v) :
    Follows c c (Scoping.inScope [] w) (do
      let enclosing := (← get).body
      Resolver.setBody kind
      Resolver.beginScope
      v
      Resolver.endScope
      Resolver.setBody enclosing) := by
  have inner := (setBody (c := c) kind).bind ((inScope hl hw beginScope).bind (setBody c.body))
  simp only [bind_assoc, pure_bind, bind_pure_unit] at inner
  exact inner

theorem resolveSuperclass (c : Context) (name : Token) (superclass : Option Expr) :
    Follows { c with cls := .base } { c with cls := classKind superclass }
      (reportSelfInheritance name superclass >>= fun _ =>
        walkOption { c with cls := classKind superclass } superclass)
      (Resolver.resolveSuperclass name superclass) := by
  cases superclass with
  | none => exact Mirrors.pure.follows
  | some e =>
    have all := (Mirrors.reportSelfInheritance (c := { c with cls := .base }) name e).follows.bind
      ((setClass .derived).bind (Mirrors.resolveExpr { c with cls := .derived } e).follows)
    simp only [pure_bind] at all
    exact all

mutual

theorem resolveStmt (c : Context) : (s : Stmt) → Follows c c (walkStmt c s) (Resolver.resolveStmt s)
  | .expr e => by
    rw [walkStmt, Resolver.resolveStmt]
    exact (Mirrors.resolveExpr c e).follows
  | .print e => by
    rw [walkStmt, Resolver.resolveStmt]
    exact (Mirrors.resolveExpr c e).follows
  | .letDecl name initializer => by
    rw [walkStmt, Resolver.resolveStmt]
    exact ((Mirrors.declare name).bind (Mirrors.resolveInitializer name initializer)).follows
  | .constDecl name initializer => by
    rw [walkStmt, Resolver.resolveStmt]
    exact ((Mirrors.declare name).bind (Mirrors.resolveInitializer name (some initializer))).follows
  | .block body => by
    rw [walkStmt, Resolver.resolveStmt]
    exact inScope (Level.composed.walkStmts c body) (resolveStatements c body).follows beginScope
  | .cond condition thenBranch elseBranch => by
    rw [walkStmt, Resolver.resolveStmt]
    exact (Mirrors.resolveExpr c condition).follows.bind
      ((resolveStmt c thenBranch).bind (resolveElse c elseBranch))
  | .loop condition body => by
    rw [walkStmt, Resolver.resolveStmt]
    exact (Mirrors.resolveExpr c condition).follows.bind (resolveStmt c body)
  | .function declaration => by
    rw [walkStmt, Resolver.resolveStmt]
    exact (Mirrors.declare _).follows.bind ((Mirrors.define _).follows.bind
      (resolveFunction c .function declaration))
  | .ret keyword value => by
    rw [walkStmt_ret, Resolver.resolveStmt]
    refine (Mirrors.get_bind fun p seen => ?_).follows
    rw [Context.resolver_body]
    by_cases hb : c.body = .none
    · simp only [checkReturn, hb, if_true]
      exact .failed _ _ seen
    · simp only [hb, if_false]
      exact Mirrors.resolveReturned keyword value hb p seen
  | .classDecl name superclass methods statics => by
    rw [walkStmt, Resolver.resolveStmt]
    have body := (setClass (c := c) .base).bind ((resolveSuperclass c name superclass).bind
      ((resolveMethods { c with cls := classKind superclass } methodKind methods).bind
        ((resolveMethods { c with cls := classKind superclass } (fun _ => .method) statics).bind
          (setClass c.cls))))
    have whole := (Mirrors.declare (c := c) name).follows.bind
      ((Mirrors.define name).follows.bind body)
    simp only [bind_assoc, pure_bind, bind_pure_unit] at whole
    exact whole

theorem resolveStatements (c : Context) :
    (ss : List Stmt) → Mirrors c (walkStmts c ss) (Resolver.resolveStatements ss)
  | [] => by
    rw [walkStmts, Resolver.resolveStatements]
    exact .pure
  | s :: ss => by
    rw [walkStmts, Resolver.resolveStatements]
    exact (Mirrors.isolate (Level.composed.walkStmt c s) (resolveStmt c s)).bind
      (resolveStatements c ss)

theorem resolveElse (c : Context) :
    (s : Option Stmt) → Follows c c (walkElse c s) (Resolver.resolveElse s)
  | none => by
    rw [walkElse, Resolver.resolveElse]
    exact Mirrors.pure.follows
  | some s => by
    rw [walkElse, Resolver.resolveElse]
    exact resolveStmt c s

theorem resolveFunction (c : Context) (kind : BodyKind) : (d : FunctionDecl) →
    Follows c c (walkRoutine { c with body := kind } d) (Resolver.resolveFunction kind d)
  | ⟨_, parameters, body⟩ => by
    have inside := (Mirrors.resolveParameters (c := { c with body := kind }) parameters).bind
      (resolveStatements { c with body := kind } body)
    have level := Level.composed.bind (Level.composed.walkParameters parameters)
      (Level.composed.walkStmts { c with body := kind } body)
    have whole := routine level inside.follows
    simp only [bind_assoc] at whole
    rw [walkRoutine, Resolver.resolveFunction]
    exact whole

theorem resolveMethods (c : Context) (kind : String → BodyKind) : (ds : List FunctionDecl) →
    Follows c c (walkMethods kind c ds) (Resolver.resolveMethods kind ds)
  | [] => by
    rw [walkMethods, Resolver.resolveMethods]
    exact Mirrors.pure.follows
  | d :: ds => by
    have method := inScope (Level.composed.walkRoutine _ d)
      (resolveFunction c (kind d.name.lexeme) d) beginReceiver
    have all := method.bind (resolveMethods c kind ds)
    simp only [bind_assoc] at all
    rw [walkMethods, Resolver.resolveMethods]
    exact all

end

end Follows

end Scoping

end ClassScript
