import ClassScript.Proofs.Machine.Causes

/-! Where a run stops early. A task that fails either raises the stop itself, once its calls have
ended well, or fails with a call; so behind every failure there is a moment that raises it. -/
namespace ClassScript

/-- What keeps a source from being read is not an error of a run. -/
theorem parse_error {source : List UInt8} {diagnostics : List Diagnostic}
    (h : parse source = .error diagnostics) : ∀ x ∈ diagnostics, x.isRuntime = false := by
  rcases except_bind_error.mp h with h | ⟨ts, -, h⟩
  · unfold scan at h
    cases ht : tokens source with
    | ok => rw [ht] at h; cases h
    | error faults =>
      rw [ht] at h
      cases h
      intro x hx
      obtain ⟨⟨cause, line⟩, -, rfl⟩ := List.mem_map.mp hx
      rfl
  · cases hs : Stmt.ofTokens ts with
    | ok => rw [hs] at h; cases h
    | error errors =>
      rw [hs] at h
      cases h
      simp [Diagnostic.isRuntime]

namespace Machine

variable {now next : Moment} {stop : Stop} {d : Nat} {m m' : Machine}

/-- The task raises the stop by a step of its own. -/
inductive Raises : Moment → Stop → Prop
  | tooDeep {t m} : Raises ⟨0, t, m⟩ .tooDeep
  | read {d m m' id name stop} (h : lookup id name.lexeme name.line m = .error stop m') :
    Raises ⟨d + 1, .expr (.var id name), m⟩ stop
  | receiver {d m m' id keyword stop} (h : lookup id "this" keyword.line m = .error stop m') :
    Raises ⟨d + 1, .expr (.thisRef id keyword), m⟩ stop
  | superMember {d m m' id keyword method stop}
    (h : superMember id keyword method m = .error stop m') :
    Raises ⟨d + 1, .expr (.superMethod id keyword method), m⟩ stop
  | assigned {d m m₁ m' id name value v stop} (hv : evaluate d value m = .ok v m₁)
    (h : assign id name v m₁ = .error stop m') :
    Raises ⟨d + 1, .expr (.assign id name value), m⟩ stop
  | unary {d m m' operator operand v cause} (hv : evaluate d operand m = .ok v m')
    (h : v.applyUnary operator = .error cause) :
    Raises ⟨d + 1, .expr (.unary operator operand), m⟩ (.error (.fault cause operator.line))
  | binary {d m m₁ m' left operator right v w cause} (hc : operator.is .coalesce = false)
    (hl : evaluate d left m = .ok v m₁) (hr : evaluate d right m₁ = .ok w m')
    (h : v.applyBinary operator w = .error cause) :
    Raises ⟨d + 1, .expr (.binary left operator right), m⟩
      (.error (.fault cause operator.line))
  | notCallable {d m m' callee paren arguments v} (hf : evaluate d callee m = .ok v m')
    (hv : v.callable? = none) :
    Raises ⟨d + 1, .expr (.call callee paren arguments), m⟩
      (.error (.fault (.notCallable v.display) paren.line))
  | arity {d m m₁ m' callee paren arguments v name arity vs}
    (hf : evaluate d callee m = .ok v m₁) (hv : v.callable? = some (name, arity))
    (ha : evaluateAll d arguments m₁ = .ok vs m') (hn : vs.length ≠ arity) :
    Raises ⟨d + 1, .expr (.call callee paren arguments), m⟩
      (.error (.fault (.arityMismatch name arity vs.length) paren.line))
  | property {d m m₁ m' object name v stop} (ho : evaluate d object m = .ok v m₁)
    (h : property v name m₁ = .error stop m') :
    Raises ⟨d + 1, .expr (.property object name), m⟩ stop
  | target {d m m' object name value v} (ho : evaluate d object m = .ok v m')
    (hv : ∀ id c, v ≠ .object id c) :
    Raises ⟨d + 1, .expr (.setProperty object name value), m⟩
      (.error (.fault (.propertyTarget v.display) name.line))
  | parameters {d m m₁ m' code arguments scope stop}
    (ho : openScope code.scope [] m = .ok scope m₁)
    (h : bindArguments scope code.declaration.params arguments m₁ = .error stop m') :
    Raises ⟨d + 1, .invoke code arguments, m⟩ stop
  | printed {d m m₁ m' e v stop} (he : evaluate d e m = .ok v m₁)
    (h : print v m₁ = .error stop m') : Raises ⟨d + 1, .stmt (.print e), m⟩ stop
  | letBinding {d m m₁ m' name e v stop} (he : evaluateOption d e m = .ok v m₁)
    (h : define name v false m₁ = .error stop m') :
    Raises ⟨d + 1, .stmt (.letDecl name e), m⟩ stop
  | constBinding {d m m₁ m' name e v stop} (he : evaluate d e m = .ok v m₁)
    (h : define name v true m₁ = .error stop m') :
    Raises ⟨d + 1, .stmt (.constDecl name e), m⟩ stop
  | functionBinding {d m m₁ m' declaration v stop}
    (hf : newFunction ⟨declaration, m.current⟩ m = .ok v m₁)
    (h : define declaration.name v false m₁ = .error stop m') :
    Raises ⟨d + 1, .stmt (.function declaration), m⟩ stop
  | classBinding {d m m' name superclass methods statics stop}
    (h : define name .null false m = .error stop m') :
    Raises ⟨d + 1, .declareClass name superclass methods statics, m⟩ stop
  | classValue {d m m₁ m₂ m₃ m' name superclass methods statics u ancestors id v stop}
    (hd : define name .null false m = .ok u m₁)
    (ha : evaluateSuperclass d superclass m₁ = .ok ancestors m₂)
    (hi : newIdentity m₂ = .ok id m₃)
    (h : onScopes name.line (Scopes.assign m₂.current name.lexeme v) m₃ = .error stop m') :
    Raises ⟨d + 1, .declareClass name superclass methods statics, m⟩ stop
  | notAClass {d m m' e v} (he : evaluate d e m = .ok v m') (hv : ∀ c, v ≠ .classRef c) :
    Raises ⟨d + 1, .superclass (some e), m⟩
      (.error (.fault (.notAClass (superclassLabel e v)) e.line))

/-- Performed at the moment, the task stops early. -/
def Moment.Fails (now : Moment) (stop : Stop) : Prop :=
  ∃ m', perform now.depth now.task now.machine = .error stop m'

/-- The task raises the stop itself, or one of its calls fails with it. -/
def Moment.Stems (now : Moment) (stop : Stop) : Prop :=
  Raises now stop ∨ ∃ next, Calls now next ∧ next.Fails stop

theorem Calls.stems (hc : Calls now next)
    (h : perform next.depth next.task next.machine = .error stop m') : now.Stems stop :=
  .inr ⟨next, hc, m', h⟩

theorem ofExcept_error {line : Nat} {result : Except RuntimeFault Value}
    (h : ofExcept line result m = .error stop m') :
    ∃ cause, result = .error cause ∧ stop = .error (.fault cause line) := by
  cases result with
  | ok v => cases h
  | error cause =>
    cases h
    exact ⟨cause, rfl, rfl⟩

theorem fault_error {α : Type} {cause : RuntimeFault} {line : Nat}
    (h : (fault cause line : Run α) m = .error stop m') : stop = .error (.fault cause line) := by
  cases h
  rfl

theorem evaluate_stems {e : Expr} (h : evaluate (d + 1) e m = .error stop m') :
    (Moment.mk (d + 1) (.expr e) m).Stems stop := by
  cases e with
  | literal value => cases h
  | group inner => exact Calls.group.stems h
  | var id name => exact .inl (.read h)
  | assign id name value =>
    rcases bind_error.mp h with h | ⟨v, m₁, hv, h⟩
    · exact Calls.assigned.stems h
    · rcases bind_error.mp h with h | ⟨_, _, -, h⟩
      · exact .inl (.assigned hv h)
      · cases h
  | unary operator operand =>
    rcases bind_error.mp h with h | ⟨v, m₁, hv, h⟩
    · exact Calls.operand.stems h
    · obtain ⟨cause, hc, rfl⟩ := ofExcept_error h
      exact .inl (.unary hv hc)
  | binary left operator right =>
    rw [evaluate] at h
    split at h
    · rcases bind_error.mp h with h | ⟨v, m₁, hl, h⟩
      · exact Calls.binaryLeft.stems h
      · split at h
        · rename_i hv
          exact (Calls.binaryRight hl fun _ => hv).stems h
        · cases h
    · rename_i plain
      rcases bind_error.mp h with h | ⟨v, m₁, hl, h⟩
      · exact Calls.binaryLeft.stems h
      · rcases bind_error.mp h with h | ⟨w, m₂, hr, h⟩
        · exact (Calls.binaryRight hl fun coalesces => absurd coalesces plain).stems h
        · obtain ⟨cause, hc, rfl⟩ := ofExcept_error h
          exact .inl (.binary (Bool.eq_false_iff.mpr plain) hl hr hc)
  | logical left operator right =>
    rcases bind_error.mp h with h | ⟨v, m₁, hl, h⟩
    · exact Calls.logicalLeft.stems h
    · split at h
      · cases h
      · rename_i hs
        exact (Calls.logicalRight hl (Bool.eq_false_iff.mpr hs)).stems h
  | call callee paren arguments =>
    rcases bind_error.mp h with h | ⟨v, m₁, hf, h⟩
    · exact Calls.callee.stems h
    · cases hv : v.callable? with
      | none =>
        simp only [hv] at h
        rw [fault_error h]
        exact .inl (.notCallable hf hv)
      | some called =>
        simp only [hv] at h
        rcases bind_error.mp h with h | ⟨vs, m₂, ha, h⟩
        · exact (Calls.arguments hf hv).stems h
        · split at h
          · rename_i hn
            rw [fault_error h]
            exact .inl (.arity hf hv ha (bne_iff_ne.mp hn))
          · rename_i hn
            exact (Calls.applied hf hv ha (by simpa using hn)).stems h
  | property object name =>
    rcases bind_error.mp h with h | ⟨v, m₁, ho, h⟩
    · exact Calls.propertyObject.stems h
    · exact .inl (.property ho h)
  | setProperty object name value =>
    rcases bind_error.mp h with h | ⟨v, m₁, ho, h⟩
    · exact Calls.setObject.stems h
    · split at h
      · rcases bind_error.mp h with h | ⟨_, _, -, h⟩
        · exact (Calls.setValue ho).stems h
        · cases h
      · rename_i other
        rw [fault_error h]
        exact .inl (.target ho other)
  | thisRef id keyword => exact .inl (.receiver h)
  | superMethod id keyword method => exact .inl (.superMember h)

theorem execute_stems {s : Stmt} (h : execute (d + 1) s m = .error stop m') :
    (Moment.mk (d + 1) (.stmt s) m).Stems stop := by
  cases s with
  | expr e =>
    rcases bind_error.mp h with h | ⟨_, _, -, h⟩
    · exact Calls.expression.stems h
    · cases h
  | print e =>
    rcases bind_error.mp h with h | ⟨v, m₁, he, h⟩
    · exact Calls.printed.stems h
    · rcases bind_error.mp h with h | ⟨_, _, -, h⟩
      · exact .inl (.printed he h)
      · cases h
  | letDecl name initializer =>
    rcases bind_error.mp h with h | ⟨v, m₁, he, h⟩
    · exact Calls.letInitializer.stems h
    · rcases bind_error.mp h with h | ⟨_, _, -, h⟩
      · exact .inl (.letBinding he h)
      · cases h
  | constDecl name initializer =>
    rcases bind_error.mp h with h | ⟨v, m₁, he, h⟩
    · exact Calls.constInitializer.stems h
    · rcases bind_error.mp h with h | ⟨_, _, -, h⟩
      · exact .inl (.constBinding he h)
      · cases h
  | block body =>
    rcases bind_error.mp h with h | ⟨_, _, hg, h⟩
    · cases h
    · cases hg
      rcases bind_error.mp h with h | ⟨scope, m₁, ho, h⟩
      · cases h
      · obtain ⟨m₂, h⟩ := within_error h
        exact (Calls.block ho).stems h
  | cond condition thenBranch elseBranch =>
    rcases bind_error.mp h with h | ⟨v, m₁, hc, h⟩
    · exact Calls.condition.stems h
    · split at h
      · rename_i ht
        exact (Calls.thenBranch hc ht).stems h
      · rename_i ht
        cases elseBranch with
        | none => cases h
        | some elseBranch =>
          exact (Calls.elseBranch hc (Bool.eq_false_iff.mpr ht)).stems h
  | loop condition body =>
    rcases bind_error.mp h with h | ⟨v, m₁, hc, h⟩
    · exact Calls.loopCondition.stems h
    · split at h
      · rename_i ht
        rcases bind_error.mp h with h | ⟨signal, m₂, hb, h⟩
        · exact (Calls.loopBody hc ht).stems h
        · cases signal with
          | normal => exact (Calls.again hc ht hb).stems h
          | returned value => cases h
      · cases h
  | function declaration =>
    rcases bind_error.mp h with h | ⟨_, _, hg, h⟩
    · cases h
    · cases hg
      rcases bind_error.mp h with h | ⟨v, m₁, hf, h⟩
      · cases h
      · rcases bind_error.mp h with h | ⟨_, _, -, h⟩
        · exact .inl (.functionBinding hf h)
        · cases h
  | ret keyword value =>
    rcases bind_error.mp h with h | ⟨_, _, -, h⟩
    · exact Calls.returned.stems h
    · cases h
  | classDecl name superclass methods statics =>
    rcases bind_error.mp h with h | ⟨_, _, -, h⟩
    · exact Calls.classDecl.stems h
    · cases h

theorem declareClass_stems {name : Token} {superclass : Option Expr}
    {methods statics : List FunctionDecl}
    (h : declareClass (d + 1) name superclass methods statics m = .error stop m') :
    (Moment.mk (d + 1) (.declareClass name superclass methods statics) m).Stems stop := by
  rcases bind_error.mp h with h | ⟨_, m₁, hd, h⟩
  · exact .inl (.classBinding h)
  · rcases bind_error.mp h with h | ⟨ancestors, m₂, ha, h⟩
    · exact (Calls.extended hd).stems h
    · rcases bind_error.mp h with h | ⟨_, _, hg, h⟩
      · cases h
      · cases hg
        rcases bind_error.mp h with h | ⟨id, m₃, hi, h⟩
        · cases h
        · exact .inl (.classValue hd ha hi h)

theorem invoke_stems {code : Closure} {arguments : List Value}
    (h : invoke (d + 1) code arguments m = .error stop m') :
    (Moment.mk (d + 1) (.invoke code arguments) m).Stems stop := by
  rcases bind_error.mp h with h | ⟨scope, m₁, ho, h⟩
  · cases h
  · rcases bind_error.mp h with h | ⟨_, m₂, hb, h⟩
    · exact .inl (.parameters ho h)
    · rcases bind_error.mp h with h | ⟨signal, _, -, h⟩
      · obtain ⟨m₃, h⟩ := within_error h
        exact (Calls.body ho hb).stems h
      · cases signal <;> cases h

theorem apply_stems {callee : Value} {arguments : List Value}
    (h : apply (d + 1) callee arguments m = .error stop m') :
    (Moment.mk (d + 1) (.apply callee arguments) m).Stems stop := by
  cases callee with
  | function id code => exact Calls.function.stems h
  | classRef c =>
    rcases bind_error.mp h with h | ⟨object, m₁, ho, h⟩
    · cases h
    · cases hf : c.constructor? with
      | none =>
        simp only [hf] at h
        cases h
      | some found =>
        simp only [hf] at h
        rcases bind_error.mp h with h | ⟨code, m₂, hb, h⟩
        · cases h
        · rcases bind_error.mp h with h | ⟨_, _, -, h⟩
          · exact (Calls.construct ho hf hb).stems h
          · cases h
  | _ => cases h

/-- Whatever stops a task is raised by the task or by a call. -/
theorem Moment.Fails.stems (h : now.Fails stop) : now.Stems stop := by
  obtain ⟨depth, t, m⟩ := now
  obtain ⟨m', h⟩ := h
  cases depth with
  | zero => cases t <;> (cases h; exact .inl .tooDeep)
  | succ d =>
    cases t with
    | expr e => exact evaluate_stems h
    | exprs es =>
      cases es with
      | nil => cases h
      | cons e es =>
        rcases bind_error.mp h with h | ⟨v, m₁, he, h⟩
        · exact Calls.first.stems h
        · rcases bind_error.mp h with h | ⟨_, _, -, h⟩
          · exact (Calls.others he).stems h
          · cases h
    | option e =>
      cases e with
      | none => cases h
      | some e => exact Calls.present.stems h
    | superclass e =>
      cases e with
      | none => cases h
      | some e =>
        rcases bind_error.mp h with h | ⟨v, m₁, he, h⟩
        · exact Calls.ancestor.stems h
        · split at h
          · cases h
          · rename_i other
            rw [fault_error h]
            exact .inl (.notAClass he other)
    | apply callee arguments => exact apply_stems h
    | invoke code arguments => exact invoke_stems h
    | stmt s => exact execute_stems h
    | stmts ss =>
      cases ss with
      | nil => cases h
      | cons s ss =>
        rcases bind_error.mp h with h | ⟨signal, m₁, hs, h⟩
        · exact Calls.statement.stems h
        · cases signal with
          | normal => exact (Calls.rest hs).stems h
          | returned value => cases h
    | declareClass name superclass methods statics => exact declareClass_stems h

/-- Every failure is raised at a moment that occurs. -/
theorem Moment.Fails.raised (h : now.Fails stop) :
    ∃ last, Relation.ReflTransGen Calls now last ∧ Raises last stop := by
  obtain ⟨depth, t, m⟩ := now
  induction depth generalizing t m with
  | zero =>
    rcases h.stems with raised | ⟨next, hc, -⟩
    · exact ⟨_, .refl, raised⟩
    · exact absurd hc.depth_eq (Nat.succ_ne_zero _).symm
  | succ depth ih =>
    rcases h.stems with raised | ⟨⟨_, t', m'⟩, hc, fails⟩
    · exact ⟨_, .refl, raised⟩
    · obtain rfl := Nat.succ.inj hc.depth_eq
      obtain ⟨last, hl, raised⟩ := ih t' m' fails
      exact ⟨last, .head hc hl, raised⟩

/-- How a run ends when its execution ends so. -/
def ended {α : Type} : EStateM.Result Stop Machine α → Ending × Machine
  | .ok _ m => (.finished, m)
  | .error (.error e) m => (.failed [.runtime e], m)
  | .error .tooDeep m => (.tooDeep, m)

/-- The run of a source that is read and accepted ends as the execution of its program does. -/
theorem run_accepted {source : List UInt8} {program : List Stmt} (hp : parse source = .ok program)
    (ha : (m.analyze program).1 = []) :
    run d source m = ended (interpret d program (m.analyze program).2) := by
  rcases hm : m.analyze program with ⟨errors, m₁⟩
  obtain rfl : errors = [] := by rwa [hm] at ha
  simp only [run, hp, hm]
  rcases interpret d program m₁ with _ | ⟨_ | _, _⟩ <;> rfl

theorem run_rejected {source : List UInt8} {program : List Stmt} {e : StaticError}
    {es : List StaticError} (hp : parse source = .ok program)
    (ha : (m.analyze program).1 = e :: es) :
    run d source m = (.failed ((e :: es).map .static), (m.analyze program).2) := by
  rcases hm : m.analyze program with ⟨errors, m₁⟩
  obtain rfl : errors = e :: es := by rwa [hm] at ha
  simp only [run, hp, hm]

/-- A run that stops with an error of execution has read and accepted its source. -/
theorem run_error {source : List UInt8} {e : RuntimeError}
    (h : run d source m = (.failed [.runtime e], m')) :
    ∃ program, parse source = .ok program ∧ (m.analyze program).1 = [] ∧
      interpret d program (m.analyze program).2 = .error (.error e) m' := by
  unfold run at h
  cases hp : parse source with
  | error diagnostics =>
    rw [hp] at h
    cases h
    cases parse_error hp _ List.mem_cons_self
  | ok program =>
    rw [hp] at h
    refine ⟨program, rfl, ?_⟩
    rcases ha : m.analyze program with ⟨_ | ⟨e, es⟩, m₁⟩
    · simp only [ha] at h
      cases hi : interpret d program m₁ with
      | ok u m₂ =>
        rw [hi] at h
        cases h
      | error stop m₂ =>
        rw [hi] at h
        cases stop with
        | tooDeep => cases h
        | error e =>
          cases h
          exact ⟨rfl, rfl⟩
    · simp only [ha] at h
      cases h

/-- What goes wrong at a line of a program is raised at a moment of its run. -/
theorem run_raised {source : List UInt8} {sink : Sink} {cause : RuntimeFault} {line : Nat}
    (h : run d source (fresh sink) = (.failed [.runtime (.fault cause line)], m')) :
    ∃ program now, parse source = .ok program ∧ ((fresh sink).analyze program).1 = [] ∧
      Relation.ReflTransGen Calls ⟨d, .stmts program, ((fresh sink).analyze program).2⟩ now ∧
      Raises now (.error (.fault cause line)) := by
  obtain ⟨program, parsed, accepted, hi⟩ := run_error h
  rw [interpret_eq] at hi
  rcases bind_error.mp hi with hx | ⟨_, _, -, hf⟩
  · rcases bind_error.mp hx with hx | ⟨_, _, -, hx⟩
    · have fails : (Moment.mk d (.stmts program) ((fresh sink).analyze program).2).Fails
          (.error (.fault cause line)) := ⟨m', hx⟩
      obtain ⟨last, hl, raised⟩ := fails.raised
      exact ⟨program, last, parsed, accepted, hl, raised⟩
    · cases hx
  · obtain ⟨_, hs⟩ := onSink_error hf
    cases hs

end Machine

end ClassScript
