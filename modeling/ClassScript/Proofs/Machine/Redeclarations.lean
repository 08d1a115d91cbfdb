import ClassScript.Proofs.Machine.Outermost
import ClassScript.Proofs.Machine.Receivers
import ClassScript.Proofs.Machine.Unbound

/-! Declarations of a name that is bound already. Every scope that a run makes executes each of its
declarations at most once, so none of them fails; only at the top level, where a program may declare
a name again, can a declaration fail. -/
namespace ClassScript

open Scoping (Analyzed Found Names)

/-- The name that a declaration declares. -/
def Stmt.declaration? : Stmt → Option Token
  | letDecl name _ | constDecl name _ | classDecl name _ _ _ => some name
  | function d => some d.name
  | expr _ | print _ | block _ | cond _ _ _ | loop _ _ | ret _ _ => none

theorem Scoping.Found.declaration {program : List Stmt} {r : Resolution} (h : Analyzed program r)
    {declared : List (List String)} {scopes : List Names} {s : Stmt} {name : Token}
    (hf : Found program (.stmt s) declared scopes) (hd : s.declaration? = some name) :
    Found.Fresh name declared scopes := by
  cases s with
  | letDecl =>
    cases hd
    exact (hf.letDecl h).1
  | constDecl =>
    cases hd
    exact (hf.constDecl h).1
  | function =>
    cases hd
    exact (hf.function h).1
  | classDecl =>
    cases hd
    exact (hf.classDecl h).1
  | expr | print | block | cond | loop | ret => cases hd

/-- A new scope takes a name that it does not bind yet. -/
theorem Scopes.define_new {t : Scopes} {scope : Scope} {name : String} {value : Value}
    {constant : Bool} (h : scope.find? name = none) :
    define t.all.size name value constant ⟨t.all.push scope⟩ =
      .ok () ⟨t.all.push (scope.add name ⟨value, constant⟩)⟩ := by
  have written : (t.all.push scope).modify t.all.size (·.add name ⟨value, constant⟩) =
      t.all.push (scope.add name ⟨value, constant⟩) := by
    apply Array.ext
    · simp
    · intro i hi _
      simp only [Array.size_modify, Array.size_push] at hi
      simp only [Array.getElem_modify, Array.getElem_push]
      split_ifs <;> first | rfl | omega
  rw [define_eq, binding?_push_new, h, written]
  rfl

namespace Machine

variable {source : List UInt8} {sink : Sink} {program : List Stmt} {r : Resolution}
  {layout : List (List String)} {m m' : Machine} {now next : Moment} {name : String}
  {line depth : Nat}

/-- The statement that a task executes. -/
def Task.statement? : Task → Option Stmt
  | stmt s => some s
  | declareClass name extended methods statics => some (.classDecl name extended methods statics)
  | expr _ | exprs _ | option _ | superclass _ | apply _ _ | invoke _ _ | stmts _ => none

theorem Task.Ready.statement {t : Task} {s : Stmt} (hr : t.Ready program layout m)
    (hs : t.statement? = some s) : At program layout m (.stmt s) := by
  cases t <;> cases hs <;> exact hr

section Unbound

/-- Below the top level a name that the walk does not know yet is not bound in the current scope. -/
theorem Standing.unbound {declared : List (List String)} {scopes : List Names} {token : Token}
    (h : Standing layout m declared scopes) (hf : Found.Fresh token declared scopes)
    (above : topLevel < m.current) : m.scopes.binding? m.current token.lexeme = none := by
  obtain ⟨mirrors, exact⟩ := h
  generalize m.current = id at *
  cases mirrors with
  | topLevel => exact absurd above (Nat.lt_irrefl _)
  | inside =>
    refine Option.not_isSome_iff_eq_none.mp fun bound => ?_
    cases (hf.unknown _ rfl).symm.trans (exact _ rfl _ bound)

theorem Unchanged.unbound (hu : Unchanged m m') (hc : m.current < m.scopes.all.size)
    (h : m.scopes.binding? m.current name = none) : m'.scopes.binding? m'.current name = none := by
  refine Option.not_isSome_iff_eq_none.mp fun bound => ?_
  rw [hu.current] at bound
  rcases hu.steady.gained _ _ hc bound with bound | fresh
  · simp [h] at bound
  · exact fresh

theorem define_unbound {token : Token} {v : Value} {constant : Bool} {stop : Stop}
    (h : m.scopes.binding? m.current token.lexeme = none) :
    define token v constant m ≠ .error stop m' := by
  intro hd
  rw [define_eq] at hd
  obtain ⟨cause, t, hs, -⟩ := onScopes_error hd
  simp [Scopes.define_eq, h] at hs

/-- Parameters of different names are bound in a scope that has none of them. -/
theorem bindArguments_unbound {scope : ScopeId} {params : List Token} {arguments : List Value}
    (hs : scope < m.scopes.all.size) (hn : (params.map Token.lexeme).Nodup)
    (hb : ∀ p ∈ params, m.scopes.binding? scope p.lexeme = none) :
    ∃ m', bindArguments scope params arguments m = .ok () m' := by
  induction params generalizing m arguments with
  | nil => exact ⟨m, rfl⟩
  | cons p params ih =>
    cases arguments with
    | nil => exact ⟨m, rfl⟩
    | cons v arguments =>
      obtain ⟨apart, hn⟩ := List.nodup_cons.mp hn
      have defined : onScopes p.line (Scopes.define scope p.lexeme v false) m =
          .ok () { m with scopes := ⟨m.scopes.all.modify scope (·.add p.lexeme ⟨v, false⟩)⟩ } := by
        rw [onScopes_eq, Scopes.define_eq, hb p List.mem_cons_self]
        rfl
      rw [bindArguments, bind_of_ok defined]
      refine ih (by simpa using hs) hn fun q hq => ?_
      have other : q.lexeme ≠ p.lexeme := fun same => apart (same ▸ List.mem_map_of_mem hq)
      rw [Scopes.binding?_add hs, if_neg fun here => other here.2]
      exact hb q (List.mem_cons_of_mem _ hq)

end Unbound

section Places

variable {start : Machine}

/-- The statement stands in the program itself, and the machine has executed all that stands before
it. -/
def ComesTo (program : List Stmt) (depth : Nat) (start : Machine) (s : Stmt) (m : Machine) : Prop :=
  ∃ front behind, program = front ++ s :: behind ∧ Completes depth front start m

/-- The task is about the statements of the program itself, not about parts of them. -/
inductive Outright (program : List Stmt) (depth : Nat) (start : Machine) : Moment → Prop
  | statements {d front rest m} (text : program = front ++ rest)
    (done : Completes depth front start m) (left : depth = front.length + d) :
    Outright program depth start ⟨d, .stmts rest, m⟩
  | statement {d t s m} (task : t.statement? = some s) (comes : ComesTo program depth start s m) :
    Outright program depth start ⟨d, t, m⟩

/-- What a task declares is declared below the top level, or by the statements of the program
itself. -/
def Placed (program : List Stmt) (depth : Nat) (start : Machine) (now : Moment) : Prop :=
  now.task.declares = [] ∨ topLevel < now.machine.current ∨ Outright program depth start now

/-- A statement of the program itself calls tasks that declare nothing, or opens a scope for
them. -/
theorem Outright.calls (h : Analyzed program r) (ho : Outright program depth start now)
    (hc : Calls now next) (hr : now.task.Ready program layout now.machine)
    (fewer : next.task.declares ⊆ now.task.declares) : Placed program depth start next := by
  have nothing (hn : now.task.declares = []) : Placed program depth start next :=
    .inl (List.subset_nil.mp (hn ▸ fewer))
  cases ho with
  | @statements d front rest m text done left =>
    cases hc with
    | statement => exact .inr (.inr (.statement rfl ⟨front, _, text, done⟩))
    | @rest d _ _ s ss hs =>
      refine .inr (.inr (.statements ?_ (done.snoc left hs) ?_))
      · rw [text, List.append_assoc, List.singleton_append]
      · rw [left, List.length_append, List.length_singleton]
        omega
  | statement task comes =>
    cases hc with
    | expression | printed | letInitializer | constInitializer | condition | loopCondition
    | returned
    | extended => exact .inl rfl
    | block => exact nothing (by rw [Task.declares, Stmt.declared])
    | thenBranch | elseBranch => exact nothing (At.cond_declared h hr)
    | loopBody | again =>
      exact nothing (by rw [Task.declares, Stmt.declared, At.body_declared h hr])
    | classDecl =>
      cases task
      exact .inr (.inr (.statement rfl comes))
    | _ => cases task

theorem Placed.calls (h : Analyzed program r) (hp : Placed program depth start now)
    (hc : Calls now next) (ht : Tidy program r layout now.machine)
    (hr : now.task.Ready program layout now.machine) : Placed program depth start next := by
  rcases hc.enters.scope with ⟨same, fewer⟩ | ⟨new, -⟩
  · rcases hp with none | above | outright
    · exact .inl (List.subset_nil.mp (none ▸ fewer))
    · exact .inr (.inl (same ▸ above))
    · exact outright.calls h hc hr fewer
  · exact .inr (.inl (Nat.lt_of_lt_of_le ht.top new))

end Places

section Raised

/-- The arguments of a call are bound without an error. -/
theorem arguments_bound (h : Analyzed program r) {code : Closure} {arguments : List Value}
    {scope : ScopeId} {m₁ : Machine} (hr : (Task.invoke code arguments).Ready program layout m)
    (ho : openScope code.scope [] m = .ok scope m₁) :
    ∃ m', bindArguments scope code.declaration.params arguments m₁ = .ok () m' := by
  obtain ⟨⟨declared, scopes, hf, -⟩, -⟩ := hr
  obtain ⟨context, hf⟩ := hf.reached
  cases ho
  refine bindArguments_unbound ?_ (hf.routine h).2.1 fun p _ => ?_
  · simp
  · exact Scopes.binding?_push_new

/-- What finds a name bound already is a declaration, which has evaluated its initializer by
then. -/
theorem Raises.declaration (h : Happens source sink program now)
    (hr : Raises now (.error (.fault (.duplicate name) line))) :
    ∃ s token v constant m₁ m', now.task.statement? = some s ∧ s.declaration? = some token ∧
      Unchanged now.machine m₁ ∧
      define token v constant m₁ = .error (.error (.fault (.duplicate name) line)) m' := by
  cases hr with
  | letBinding he hd =>
    have kept : Unchanged _ _ := Frame.unchanged ((perform_frame _ (.option _)).ok he)
    exact ⟨_, _, _, _, _, _, rfl, rfl, kept, hd⟩
  | constBinding he hd =>
    have kept : Unchanged _ _ := Frame.unchanged ((perform_frame _ (.expr _)).ok he)
    exact ⟨_, _, _, _, _, _, rfl, rfl, kept, hd⟩
  | functionBinding hf hd =>
    exact ⟨_, _, _, _, _, _, rfl, rfl, (newFunction_unchanged _).ok hf, hd⟩
  | classBinding hd => exact ⟨_, _, _, _, _, _, rfl, rfl, refl_of Unchanged _, hd⟩
  | parameters ho hb =>
    obtain ⟨layout, -, ready⟩ := occurs_ready h.analyzed sink h.occurs
    obtain ⟨_, bound⟩ := arguments_bound h.analyzed ready ho
    cases bound.symm.trans hb
  | classValue hd ha hi hs =>
    obtain ⟨layout, ht, _, _, -, standing⟩ := occurs_ready h.analyzed sink h.occurs
    cases classValue_error (standing.lt_size ht) hd ha hi hs
  | superMember hs =>
    obtain ⟨_, _, P, ev⟩ := h.evaluates rfl
    obtain ⟨c, b, hc, hb⟩ := ev.super_tracked
    cases superMember_error hc hb hs
  | read hl => cases lookup_error hl
  | receiver hl => cases lookup_error hl
  | assigned hv ha => rcases assign_error ha with hs | hs <;> cases hs
  | property ho hp => rcases property_error hp with hs | hs <;> cases hs
  | printed he hp =>
    obtain ⟨cause, hs⟩ := print_error hp
    cases hs
  | unary hv hc =>
    obtain ⟨c, hc⟩ := Value.applyUnary_error hc
    cases hc
  | binary _ hl hr hc => rcases Value.applyBinary_error hc with hc | ⟨c, hc⟩ <;> cases hc

theorem During.placed (h : Analyzed program (Scoping.analyze .empty program).2)
    (hn : During sink program depth now) :
    Placed program depth ((fresh sink).analyze program).2 now := by
  induction hn with
  | refl => exact .inr (.inr (.statements rfl .nil (Nat.zero_add _).symm))
  | tail before hc ih =>
    obtain ⟨layout, tidy, ready⟩ := occurs_ready h sink ⟨depth, before⟩
    exact ih.calls h hc tidy ready

/-- The moment executes a declaration of this name, which stands in the program itself, behind
statements that are all executed. -/
def Redeclares (program : List Stmt) (depth : Nat) (start : Machine) (now : Moment) (name : String)
    (line : Nat) : Prop :=
  ∃ s token, now.task.statement? = some s ∧ s.declaration? = some token ∧ token.lexeme = name ∧
    token.line = line ∧ ComesTo program depth start s now.machine

theorem Raises.redeclares (hp : parse source = .ok program)
    (ha : ((fresh sink).analyze program).1 = []) (hn : During sink program depth now)
    (hr : Raises now (.error (.fault (.duplicate name) line))) :
    Redeclares program depth ((fresh sink).analyze program).2 now name line := by
  have happens : Happens source sink program now := ⟨hp, ha, depth, hn⟩
  have analyzed := happens.analyzed
  obtain ⟨s, token, v, constant, m₁, m', task, declared, kept, failed⟩ := hr.declaration happens
  have cause := define_error failed
  simp only [Stop.error.injEq, RuntimeError.fault.injEq, RuntimeFault.duplicate.injEq] at cause
  refine ⟨s, token, task, declared, cause.1.symm, cause.2.symm, ?_⟩
  obtain ⟨layout, tidy, ready⟩ := occurs_ready analyzed sink happens.occurs
  obtain ⟨names, scopes, found, standing⟩ := ready.statement task
  rcases hn.placed analyzed with none | above | outright
  · cases ht : now.task <;> rw [ht] at task none <;> cases task
    · cases s <;> cases declared <;> simp [Task.declares, Stmt.declared] at none
    · simp [Task.declares] at none
  · have unbound := standing.unbound (found.declaration analyzed declared) above
    exact absurd failed (define_unbound (kept.unbound (standing.lt_size tidy) unbound))
  · cases outright with
    | statements => cases task
    | statement same comes =>
      cases same.symm.trans task
      exact comes

end Raised

/-- The receiver of a method, and behind it what `super` stands for, declared in a scope of their
own. -/
def bindDeclaring (found : FoundMethod) (receiver : Value) (line : Nat) : Run Closure := do
  let scope ← openScope found.method.scope []
  onScopes line (Scopes.define scope "this" receiver true)
  match found.superclass with
  | some superclass => onScopes line (Scopes.define scope "super" (.classRef superclass) true)
  | none => pure ()
  return { found.method with scope }

theorem bindDeclaring_eq (found : FoundMethod) (receiver : Value) (line : Nat) (m : Machine) :
    bindDeclaring found receiver line m = bind found receiver m := by
  obtain ⟨method, superclass⟩ := found
  have opened : openScope method.scope [] m = .ok m.scopes.all.size
      { m with scopes := ⟨m.scopes.all.push ⟨[], some method.scope⟩⟩ } := rfl
  have this : onScopes line (Scopes.define m.scopes.all.size "this" receiver true)
      { m with scopes := ⟨m.scopes.all.push ⟨[], some method.scope⟩⟩ } = .ok ()
      { m with
        scopes := ⟨m.scopes.all.push ⟨[("this", ⟨receiver, true⟩)], some method.scope⟩⟩ } := by
    rw [onScopes_eq, Scopes.define_new rfl]
    rfl
  rw [bindDeclaring, bind_of_ok opened, bind_of_ok this]
  cases superclass with
  | none => rfl
  | some c =>
    have super : onScopes line (Scopes.define m.scopes.all.size "super" (.classRef c) true)
        { m with scopes := ⟨m.scopes.all.push ⟨[("this", ⟨receiver, true⟩)], some method.scope⟩⟩ } =
        .ok ()
        { m with scopes := m.scopes.bound ⟨method, some c⟩ receiver } := by
      rw [onScopes_eq, Scopes.define_new]
      · rfl
      · simp [Scope.find?]
    exact bind_of_ok super

/-- Only a declaration of the program itself finds its name bound already, never one in a block, a
routine or a loop, nor a parameter; nor are the names that a bound method has for its receiver.
Every run that ends for that reason comes to such a declaration. -/
theorem redeclared_at_topLevel (hp : parse source = .ok program)
    (ha : ((fresh sink).analyze program).1 = []) :
    (∀ depth now name line, During sink program depth now →
      Raises now (.error (.fault (.duplicate name) line)) →
        Redeclares program depth ((fresh sink).analyze program).2 now name line) ∧
    (∀ depth name line m',
      run depth source (fresh sink) = (.failed [.runtime (.fault (.duplicate name) line)], m') →
        ∃ now, During sink program depth now ∧ Raises now (.error (.fault (.duplicate name) line)) ∧
          Redeclares program depth ((fresh sink).analyze program).2 now name line) ∧
    ∀ found receiver line m, bindDeclaring found receiver line m = bind found receiver m := by
  refine ⟨fun depth now name line hn hr => hr.redeclares hp ha hn, ?_, bindDeclaring_eq⟩
  intro depth name line m' failed
  obtain ⟨program', now, parsed, -, during, raised⟩ := run_raised failed
  cases hp.symm.trans parsed
  exact ⟨now, during, raised, raised.redeclares hp ha during⟩

namespace Repeated

/-- A block declares `a`, and then the program itself declares it twice. -/
def text : List UInt8 := Text.encode "\x7b let a; \x7d let a;\nlet a;"

def again : Stmt := .letDecl ⟨.symbol .identifier, "a", 2⟩ none

def statements : List Stmt :=
  [.block [.letDecl (word "a") none], .letDecl (word "a") none, again]

theorem parsed : parse text = .ok statements := by
  with_unfolding_all rfl

theorem accepted : ((fresh .unlimited).analyze statements).1 = [] := by
  with_unfolding_all rfl

/-- Where the run stops. -/
def stopped : Machine := ending (interpret 20 statements (start statements))

theorem failed :
    run 20 text (fresh .unlimited) = (.failed [.runtime (.fault (.duplicate "a") 2)], stopped) := by
  have raised : interpret 20 statements (start statements) =
      .error (.error (.fault (.duplicate "a") 2)) stopped := by
    with_unfolding_all rfl
  rw [run_accepted parsed accepted]
  exact raised ▸ rfl

end Repeated

theorem redeclared_behind_block :
    run 20 Repeated.text (fresh .unlimited) =
        (.failed [.runtime (.fault (.duplicate "a") 2)], Repeated.stopped) ∧
      ∃ now, During .unlimited Repeated.statements 20 now ∧
        Raises now (.error (.fault (.duplicate "a") 2)) ∧
        Redeclares Repeated.statements 20 (start Repeated.statements) now "a" 2 :=
  ⟨Repeated.failed,
    (redeclared_at_topLevel Repeated.parsed Repeated.accepted).2.1 20 "a" 2 _ Repeated.failed⟩

end Machine

end ClassScript
