import ClassScript.Proofs.Machine.Calls
import ClassScript.Proofs.Steps

/-! What holds of a run because it holds of its steps. A property that every way of putting steps
together keeps is one of whole tasks, once it holds of the steps that look a name up or write
output. -/
namespace ClassScript

namespace Machine

section Equations

variable {α : Type} {scope : ScopeId} {steps : Run α} {m m' : Machine}

theorem onScopes_eq (line : Nat) (action : Scopes.Action α) (m : Machine) :
    onScopes line action m = match action m.scopes with
      | .ok a scopes => .ok a { m with scopes }
      | .error cause scopes => .error (.error (.fault cause line)) { m with scopes } := rfl

theorem onSink_eq (action : EStateM SinkFault Sink α) (m : Machine) :
    onSink action m = match action m.sink with
      | .ok a sink => .ok a { m with sink }
      | .error cause sink => .error (.error (.output cause)) { m with sink } := rfl

theorem within_eq (scope : ScopeId) (steps : Run α) (m : Machine) :
    within scope steps m = match steps { m with current := scope } with
      | .ok a m' => .ok a { m' with current := m.current }
      | .error stop m' => .error stop { m' with current := m.current } := rfl

theorem flush_eq (m : Machine) : onSink Sink.flush m =
    if m.sink.refusesFlush then .error (.error (.output .flushRefused)) m else .ok () m := by
  cases hr : m.sink.refusesFlush <;> simp [onSink_eq, Sink.flush, hr]

/-- A flush leaves the machine as it is, also if it is refused. -/
theorem observing_flush (m : Machine) :
    ∃ flushed, observing (onSink Sink.flush) m = .ok flushed m := by
  have flush := flush_eq m
  split at flush
  · exact ⟨_, observing_of_error flush⟩
  · exact ⟨_, observing_of_ok flush⟩

/-- A program that is executed to its end is flushed, and the flush may fail. -/
theorem interpret_of_ok {depth : Nat} {program : List Stmt} {u : Unit}
    (h : executeProgram depth program m = .ok u m') :
    interpret depth program m = onSink Sink.flush m' := by
  rw [interpret, bind_of_ok (observing_of_ok h)]
  cases hf : onSink Sink.flush m' with
  | ok u m'' =>
    rw [bind_of_ok (observing_of_ok hf)]
    rfl
  | error refusal m'' =>
    rw [bind_of_ok (observing_of_error hf)]
    rfl

/-- A program that stops is flushed as well, and stops for its own reason if the flush fails. -/
theorem interpret_of_error {depth : Nat} {program : List Stmt} {stop : Stop}
    (h : executeProgram depth program m = .error stop m') :
    interpret depth program m = .error stop m' := by
  obtain ⟨flushed, done⟩ := observing_flush m'
  rw [interpret, bind_of_ok (observing_of_error h), bind_of_ok done]
  rfl

/-- Only after a program that is executed to its end does the outcome tell of the flush. -/
theorem interpret_eq (depth : Nat) (program : List Stmt) :
    interpret depth program = executeProgram depth program >>= fun _ => onSink Sink.flush := by
  funext m
  cases h : executeProgram depth program m with
  | ok u m' => rw [interpret_of_ok h, bind_of_ok h]
  | error stop m' => rw [interpret_of_error h, bind_of_error h]

/-- What is done in another scope ends as it would end there. -/
theorem within_ok {a : α} (h : within scope steps m = .ok a m') :
    ∃ m₁, steps { m with current := scope } = .ok a m₁ := by
  rw [within_eq] at h
  split at h
  · rename_i m₁ hs
    cases h
    exact ⟨m₁, hs⟩
  · cases h

theorem within_error {stop : Stop} (h : within scope steps m = .error stop m') :
    ∃ m₁, steps { m with current := scope } = .error stop m₁ := by
  rw [within_eq] at h
  split at h
  · cases h
  · rename_i e m₁ hs
    cases h
    exact ⟨m₁, hs⟩

end Equations

/-- Every way of putting steps together keeps the property, and so do the steps that neither ask for
a distance nor write output. -/
structure Compositional (P : {α : Type} → Run α → Machine → Prop) : Prop where
  pure {α : Type} (a : α) (m : Machine) : P (Pure.pure a : Run α) m
  throw {α : Type} (stop : Stop) (m : Machine) : P (MonadExcept.throw stop : Run α) m
  bind {α β : Type} {step : Run α} {next : α → Run β} {m : Machine} (h : P step m)
    (hn : ∀ a m', step m = .ok a m' → P (next a) m') : P (step >>= next) m
  /-- The machine is asked only for its scope and its objects. -/
  read {α : Type} {next : Machine → Run α} {m : Machine}
    (hn : ∀ m', m'.current = m.current → m'.objects = m.objects → next m' = next m)
    (h : P (next m) m) : P (get >>= next) m
  onScopes {α : Type} (line : Nat) (action : Scopes.Action α) (m : Machine) :
    P (onScopes line action) m
  within {α : Type} {scope : ScopeId} {steps : Run α} {m : Machine}
    (h : P steps { m with current := scope }) : P (within scope steps) m
  newIdentity (m : Machine) : P newIdentity m
  newObject (c : Class) (m : Machine) : P (newObject c) m
  setField (id : Nat) (name : String) (value : Value) (m : Machine) : P (setField id name value) m

/-- The steps of a task itself that look a name up or write output have the property. -/
structure Moment.Leaves (P : {α : Type} → Run α → Machine → Prop) (now : Moment) : Prop where
  read : ∀ id name, now.task = .expr (.var id name) →
    P (lookup id name.lexeme name.line) now.machine
  receiver : ∀ id keyword, now.task = .expr (.thisRef id keyword) →
    P (lookup id "this" keyword.line) now.machine
  superMember : ∀ id keyword method, now.task = .expr (.superMethod id keyword method) →
    P (superMember id keyword method) now.machine
  assigned : ∀ depth id name value v m, now.depth = depth + 1 →
    now.task = .expr (.assign id name value) → evaluate depth value now.machine = .ok v m →
      P (assign id name v) m
  printed : ∀ depth e v m, now.depth = depth + 1 → now.task = .stmt (.print e) →
    evaluate depth e now.machine = .ok v m → P (print v) m

namespace Compositional

variable {P : {α : Type} → Run α → Machine → Prop} (hP : Compositional P) {m : Machine}

include hP

section Steps

theorem fault {α : Type} (cause : RuntimeFault) (line : Nat) (m : Machine) :
    P (Machine.fault cause line : Run α) m := hP.throw _ m

theorem define (name : Token) (value : Value) (constant : Bool) (m : Machine) :
    P (define name value constant) m := by
  refine hP.read (fun m' same _ => ?_) (hP.onScopes _ _ m)
  rw [same]

theorem openScope (parent : ScopeId) (bindings : List (String × Binding)) (m : Machine) :
    P (openScope parent bindings) m := hP.onScopes _ _ m

theorem newFunction (code : Closure) (m : Machine) : P (newFunction code) m :=
  hP.bind (hP.newIdentity m) fun _ m' _ => hP.pure _ m'

theorem bindMethod (found : FoundMethod) (receiver : Value) (m : Machine) :
    P (Machine.bind found receiver) m :=
  hP.bind (hP.openScope _ _ m) fun _ m' _ => hP.pure _ m'

theorem boundFunction (found : FoundMethod) (receiver : Value) (m : Machine) :
    P (Machine.bind found receiver >>= Machine.newFunction) m :=
  hP.bind (hP.bindMethod found receiver m) fun code m' _ => hP.newFunction code m'

theorem bindValue (found : Option FoundMethod) (receiver : Value) (m : Machine) :
    P (bindValue found receiver) m := by
  cases found with
  | none => exact hP.pure _ m
  | some found =>
    refine hP.bind (hP.bindMethod found receiver m) fun code m₁ _ => ?_
    exact hP.bind (hP.newFunction code m₁) fun _ m₂ _ => hP.pure _ m₂

theorem objectMember (id : Nat) (c : Class) (name : String) (m : Machine) :
    P (objectMember id c name) m := by
  refine hP.read (fun m' _ same => by rw [same]) ?_
  cases m.objects.field? id name with
  | some value => exact hP.pure _ m
  | none => exact hP.bindValue _ _ m

theorem answer (found : Option Value) (cause : RuntimeFault) (line : Nat) (m : Machine) :
    P (match found with
      | some value => return value
      | none => Machine.fault cause line : Run Value) m := by
  cases found with
  | some value => exact hP.pure value m
  | none => exact hP.fault cause line m

/-- The method that `super` gives, bound to its receiver. -/
theorem inherited (found : Option FoundMethod) (receiver : Value) (cause : RuntimeFault)
    (line : Nat) (m : Machine) : P (match found with
      | some found => do Machine.newFunction (← Machine.bind found receiver)
      | none => Machine.fault cause line : Run Value) m := by
  cases found with
  | some found => exact hP.boundFunction found receiver m
  | none => exact hP.fault cause line m

theorem property (receiver : Value) (name : Token) (m : Machine) :
    P (property receiver name) m := by
  unfold Machine.property
  cases receiver with
  | object id c =>
    exact hP.bind (hP.objectMember id c name.lexeme m) fun found m' _ => hP.answer found _ _ m'
  | classRef c => exact hP.bind (hP.bindValue _ _ m) fun found m' _ => hP.answer found _ _ m'
  | null | bool | number | string | function =>
    exact hP.bind (hP.fault _ _ m) fun found m' _ => hP.answer found _ _ m'

theorem ofExcept (line : Nat) (result : Except RuntimeFault Value) (m : Machine) :
    P (ofExcept line result) m := by
  cases result with
  | ok value => exact hP.pure value m
  | error cause => exact hP.fault cause line m

theorem bindArguments (scope : ScopeId) (params : List Token) (arguments : List Value)
    (m : Machine) : P (bindArguments scope params arguments) m := by
  induction params generalizing arguments m with
  | nil => exact hP.pure () m
  | cons p params ih =>
    cases arguments with
    | nil => exact hP.pure () m
    | cons a arguments => exact hP.bind (hP.onScopes _ _ m) fun _ m' _ => ih arguments m'

end Steps

section Tasks

variable {depth : Nat}

theorem evaluate {e : Expr} (leaves : Moment.Leaves P ⟨depth + 1, .expr e, m⟩)
    (ih : ∀ t m', Calls ⟨depth + 1, .expr e, m⟩ ⟨depth, t, m'⟩ → P (perform depth t) m') :
    P (evaluate (depth + 1) e) m := by
  have sub {e' : Expr} {m' : Machine} (hc : Calls ⟨depth + 1, .expr e, m⟩ ⟨depth, .expr e', m'⟩) :
      P (Machine.evaluate depth e') m' := ih (.expr e') m' hc
  cases e with
  | literal value => exact hP.pure _ m
  | group inner => exact sub .group
  | var id name => exact leaves.read id name rfl
  | thisRef id keyword => exact leaves.receiver id keyword rfl
  | superMethod id keyword method => exact leaves.superMember id keyword method rfl
  | assign id name value =>
    refine hP.bind (sub .assigned) fun v m' hv => ?_
    exact hP.bind (leaves.assigned depth id name value v m' rfl rfl hv) fun _ m'' _ => hP.pure v m''
  | unary operator operand => exact hP.bind (sub .operand) fun _ m' _ => hP.ofExcept _ _ m'
  | binary left operator right =>
    have rightOperand {v : Value} {m' : Machine} (hl : Machine.evaluate depth left m = .ok v m')
        (hc : operator.is .coalesce → v.isNull) : P (Machine.evaluate depth right) m' :=
      sub (.binaryRight hl hc)
    rw [Machine.evaluate]
    split
    · refine hP.bind (sub .binaryLeft) fun v m' hl => ?_
      split
      · rename_i hn
        exact rightOperand hl fun _ => hn
      · exact hP.pure v m'
    · rename_i hc
      refine hP.bind (sub .binaryLeft) fun v m' hl => ?_
      exact hP.bind (rightOperand hl fun h => absurd h hc) fun _ m'' _ => hP.ofExcept _ _ m''
  | logical left operator right =>
    rw [Machine.evaluate]
    refine hP.bind (sub .logicalLeft) fun v m' hl => ?_
    split
    · exact hP.pure v m'
    · rename_i hs
      exact sub (.logicalRight hl (Bool.eq_false_iff.mpr hs))
  | call callee paren arguments =>
    rw [Machine.evaluate]
    refine hP.bind (sub .callee) fun v m₁ hc => ?_
    split
    · exact hP.fault _ _ m₁
    · rename_i name arity hv
      have all : P (evaluateAll depth arguments) m₁ := ih (.exprs arguments) m₁ (.arguments hc hv)
      refine hP.bind all fun vs m₂ ha => ?_
      split
      · exact hP.fault _ _ m₂
      · rename_i hn
        exact ih (.apply v vs) m₂ (.applied hc hv ha (by simpa using hn))
  | property object name =>
    exact hP.bind (sub .propertyObject) fun _ m' _ => hP.property _ _ m'
  | setProperty object name value =>
    rw [Machine.evaluate]
    refine hP.bind (sub .setObject) fun v m' ho => ?_
    split
    · refine hP.bind (sub (.setValue ho)) fun w m'' _ => ?_
      exact hP.bind (hP.setField _ _ _ m'') fun _ m₃ _ => hP.pure w m₃
    · exact hP.fault _ _ m'

theorem execute {s : Stmt} (leaves : Moment.Leaves P ⟨depth + 1, .stmt s, m⟩)
    (ih : ∀ t m', Calls ⟨depth + 1, .stmt s, m⟩ ⟨depth, t, m'⟩ → P (perform depth t) m') :
    P (execute (depth + 1) s) m := by
  have sub {e : Expr} {m' : Machine} (hc : Calls ⟨depth + 1, .stmt s, m⟩ ⟨depth, .expr e, m'⟩) :
      P (Machine.evaluate depth e) m' := ih (.expr e) m' hc
  have option {e : Option Expr} {m' : Machine}
      (hc : Calls ⟨depth + 1, .stmt s, m⟩ ⟨depth, .option e, m'⟩) :
      P (evaluateOption depth e) m' := ih (.option e) m' hc
  have branch {b : Stmt} {m' : Machine} (hc : Calls ⟨depth + 1, .stmt s, m⟩ ⟨depth, .stmt b, m'⟩) :
      P (Machine.execute depth b) m' := ih (.stmt b) m' hc
  cases s with
  | expr e => exact hP.bind (sub .expression) fun _ m' _ => hP.pure _ m'
  | print e =>
    refine hP.bind (sub .printed) fun v m' hv => ?_
    exact hP.bind (leaves.printed depth e v m' rfl rfl hv) fun _ m'' _ => hP.pure _ m''
  | letDecl name initializer =>
    refine hP.bind (option .letInitializer) fun v m' _ => ?_
    exact hP.bind (hP.define name v false m') fun _ m'' _ => hP.pure _ m''
  | constDecl name initializer =>
    refine hP.bind (sub .constInitializer) fun v m' _ => ?_
    exact hP.bind (hP.define name v true m') fun _ m'' _ => hP.pure _ m''
  | block body =>
    refine hP.read (fun m' same _ => by rw [same]) ?_
    refine hP.bind (hP.openScope m.current [] m) fun scope m' ho => hP.within ?_
    exact ih (.stmts body) _ (.block ho)
  | cond condition thenBranch elseBranch =>
    refine hP.bind (sub .condition) fun v m' hc => ?_
    split
    · rename_i ht
      exact branch (.thenBranch hc ht)
    · rename_i ht
      cases elseBranch with
      | none => exact hP.pure _ m'
      | some b => exact branch (.elseBranch hc (Bool.eq_false_iff.mpr ht))
  | loop condition body =>
    rw [Machine.execute]
    refine hP.bind (sub .loopCondition) fun v m' hc => ?_
    split
    · rename_i ht
      refine hP.bind (branch (.loopBody hc ht)) fun signal m'' hb => ?_
      cases signal with
      | normal => exact branch (.again hc ht hb)
      | returned value => exact hP.pure _ m''
    · exact hP.pure _ m'
  | function declaration =>
    refine hP.read (fun m' same _ => by rw [same]) ?_
    refine hP.bind (hP.newFunction ⟨declaration, m.current⟩ m) fun v m' _ => ?_
    exact hP.bind (hP.define declaration.name v false m') fun _ m'' _ => hP.pure _ m''
  | ret keyword value => exact hP.bind (option .returned) fun _ m' _ => hP.pure _ m'
  | classDecl name superclass methods statics =>
    exact hP.bind (ih (.declareClass name superclass methods statics) m .classDecl)
      fun _ m' _ => hP.pure _ m'

theorem declareClass {name : Token} {superclass : Option Expr} {methods statics : List FunctionDecl}
    (ih : ∀ t m', Calls ⟨depth + 1, .declareClass name superclass methods statics, m⟩
      ⟨depth, t, m'⟩ → P (perform depth t) m') :
    P (declareClass (depth + 1) name superclass methods statics) m := by
  rw [Machine.declareClass]
  refine hP.bind (hP.define name .null false m) fun _ m₁ hd => ?_
  have extended : P (evaluateSuperclass depth superclass) m₁ :=
    ih (.superclass superclass) m₁ (.extended hd)
  refine hP.bind extended fun ancestors m₂ _ => hP.read (fun m' same _ => by rw [same]) ?_
  exact hP.bind (hP.newIdentity m₂) fun id m₃ _ => hP.onScopes _ _ m₃

theorem invoke {code : Closure} {arguments : List Value}
    (ih : ∀ t m', Calls ⟨depth + 1, .invoke code arguments, m⟩ ⟨depth, t, m'⟩ →
      P (perform depth t) m') : P (invoke (depth + 1) code arguments) m := by
  rw [Machine.invoke]
  refine hP.bind (hP.openScope code.scope [] m) fun scope m₁ ho => ?_
  refine hP.bind (hP.bindArguments scope _ arguments m₁) fun _ m₂ hb => ?_
  have body : P (executeAll depth code.declaration.body) { m₂ with current := scope } :=
    ih (.stmts code.declaration.body) _ (.body ho hb)
  refine hP.bind (hP.within body) fun signal m₃ _ => ?_
  cases signal <;> exact hP.pure _ m₃

theorem apply {callee : Value} {arguments : List Value}
    (ih : ∀ t m', Calls ⟨depth + 1, .apply callee arguments, m⟩ ⟨depth, t, m'⟩ →
      P (perform depth t) m') : P (apply (depth + 1) callee arguments) m := by
  cases callee with
  | function id code => exact ih (.invoke code arguments) m .function
  | classRef c =>
    rw [Machine.apply]
    refine hP.bind (hP.newObject c m) fun object m₁ ho => ?_
    cases hf : c.constructor? with
    | none => exact hP.pure object m₁
    | some found =>
      refine hP.bind (hP.bindMethod found object m₁) fun code m₂ hb => ?_
      have called : P (Machine.invoke depth code arguments) m₂ :=
        ih (.invoke code arguments) m₂ (.construct ho hf hb)
      exact hP.bind called fun _ m₃ _ => hP.pure object m₃
  | null | bool | number | string | object => exact hP.pure _ m

/-- The property holds of a task if it holds of the look-ups and of the output at all moments that
occur for it. -/
theorem perform (depth : Nat) (t : Task) (m : Machine)
    (h : ∀ now, Relation.ReflTransGen Calls ⟨depth, t, m⟩ now → now.Leaves P) :
    P (perform depth t) m := by
  induction depth generalizing t m with
  | zero => cases t <;> exact hP.throw _ m
  | succ depth ih =>
    have called t' m' (hc : Calls ⟨depth + 1, t, m⟩ ⟨depth, t', m'⟩) :
        P (Machine.perform depth t') m' :=
      ih t' m' fun now hn => h now (.head hc hn)
    cases t with
    | expr e => exact hP.evaluate (h _ .refl) called
    | exprs es =>
      cases es with
      | nil => exact hP.pure _ m
      | cons e es =>
        refine hP.bind (called (.expr e) m .first) fun v m' he => ?_
        exact hP.bind (called (.exprs es) m' (.others he)) fun _ m'' _ => hP.pure _ m''
    | option e =>
      cases e with
      | none => exact hP.pure _ m
      | some e => exact called (.expr e) m .present
    | superclass e =>
      cases e with
      | none => exact hP.pure _ m
      | some e =>
        refine hP.bind (called (.expr e) m .ancestor) fun v m' _ => ?_
        cases v with
        | classRef c => exact hP.pure _ m'
        | null | bool | number | string | function | object => exact hP.fault _ _ m'
    | apply callee arguments => exact hP.apply called
    | invoke code arguments => exact hP.invoke called
    | stmt s => exact hP.execute (h _ .refl) called
    | stmts ss =>
      cases ss with
      | nil => exact hP.pure _ m
      | cons s ss =>
        refine hP.bind (called (.stmt s) m .statement) fun signal m' hs => ?_
        cases signal with
        | normal => exact called (.stmts ss) m' (.rest hs)
        | returned value => exact hP.pure _ m'
    | declareClass name superclass methods statics => exact hP.declareClass called

end Tasks

end Compositional

end Machine

end ClassScript
