import ClassScript.Proofs.Machine.Composition

/-! Runs that may nest deeper. The depth bounds a run and does nothing else: what a task comes to at
some depth it comes to at any larger one. -/
namespace ClassScript

namespace Machine

variable {m : Machine} {α β : Type}

/-- The second step comes to what the first one comes to, unless that one goes too deep. -/
def Extends (step step' : Run α) (m : Machine) : Prop :=
  step' m = step m ∨ ∃ m', step m = .error .tooDeep m'

namespace Extends

theorem same (step : Run α) (m : Machine) : Extends step step m := .inl rfl

theorem bind {step step' : Run α} {next next' : α → Run β} (h : Extends step step' m)
    (hn : ∀ a m', Extends (next a) (next' a) m') : Extends (step >>= next) (step' >>= next') m := by
  obtain h | ⟨m', h⟩ := h
  · cases hs : step m with
    | ok a m' =>
      unfold Extends
      rw [bind_of_ok hs, bind_of_ok (h.trans hs)]
      exact hn a m'
    | error stop m' =>
      left
      rw [bind_of_error hs, bind_of_error (h.trans hs)]
  · exact .inr ⟨m', bind_of_error h⟩

/-- Steps that begin in the same way. -/
theorem behind (step : Run α) {next next' : α → Run β}
    (hn : ∀ a m', Extends (next a) (next' a) m') :
    Extends (step >>= next) (step >>= next') m := (same step m).bind hn

theorem within {scope : ScopeId} {steps steps' : Run α}
    (h : Extends steps steps' { m with current := scope }) :
    Extends (within scope steps) (Machine.within scope steps') m := by
  obtain h | ⟨m', h⟩ := h
  · left
    rw [within_eq, within_eq, h]
  · refine .inr ⟨{ m' with current := m.current }, ?_⟩
    rw [within_eq, h]

end Extends

section Tasks

variable {depth : Nat} (ih : ∀ (t : Task) (m : Machine),
    Extends (perform depth t) (perform (depth + 1) t) m)

include ih

theorem evaluate_extends (e : Expr) (m : Machine) :
    Extends (evaluate (depth + 1) e) (evaluate (depth + 1 + 1) e) m := by
  have sub (e : Expr) (m : Machine) : Extends (evaluate depth e) (evaluate (depth + 1) e) m :=
    ih (.expr e) m
  cases e with
  | literal value => exact .same _ m
  | group inner => exact sub inner m
  | var id name => exact .same _ m
  | thisRef id keyword => exact .same _ m
  | superMethod id keyword method => exact .same _ m
  | assign id name value => exact (sub value m).bind fun _ m => .same _ m
  | unary operator operand => exact (sub operand m).bind fun _ m => .same _ m
  | binary left operator right =>
    rw [evaluate, evaluate]
    split
    · refine (sub left m).bind fun v m => ?_
      split
      · exact sub right m
      · exact .same _ m
    · exact (sub left m).bind fun _ m => (sub right m).bind fun _ m => .same _ m
  | logical left operator right =>
    refine (sub left m).bind fun v m => ?_
    split
    · exact .same _ m
    · exact sub right m
  | call callee paren arguments =>
    refine (sub callee m).bind fun v m => ?_
    split
    · exact .same _ m
    · refine Extends.bind (ih (.exprs arguments) m) fun vs m => ?_
      split
      · exact .same _ m
      · exact ih (.apply v vs) m
  | property object name => exact (sub object m).bind fun _ m => .same _ m
  | setProperty object name value =>
    refine (sub object m).bind fun v m => ?_
    cases v with
    | object id c => exact (sub value m).bind fun _ m => .same _ m
    | null | bool | number | string | function | classRef => exact .same _ m

theorem execute_extends (s : Stmt) (m : Machine) :
    Extends (execute (depth + 1) s) (execute (depth + 1 + 1) s) m := by
  have sub (e : Expr) (m : Machine) : Extends (evaluate depth e) (evaluate (depth + 1) e) m :=
    ih (.expr e) m
  have option (e : Option Expr) (m : Machine) :
      Extends (evaluateOption depth e) (evaluateOption (depth + 1) e) m := ih (.option e) m
  have branch (s : Stmt) (m : Machine) : Extends (execute depth s) (execute (depth + 1) s) m :=
    ih (.stmt s) m
  cases s with
  | expr e => exact (sub e m).bind fun _ m => .same _ m
  | print e => exact (sub e m).bind fun _ m => .same _ m
  | letDecl name initializer => exact (option initializer m).bind fun _ m => .same _ m
  | constDecl name initializer => exact (sub initializer m).bind fun _ m => .same _ m
  | block body =>
    refine .behind get fun outer m => .behind (openScope outer.current []) fun scope m => ?_
    exact .within (ih (.stmts body) _)
  | cond condition thenBranch elseBranch =>
    refine (sub condition m).bind fun v m => ?_
    split
    · exact branch thenBranch m
    · cases elseBranch with
      | none => exact .same _ m
      | some elseBranch => exact branch elseBranch m
  | loop condition body =>
    rw [execute, execute]
    refine (sub condition m).bind fun v m => ?_
    split
    · refine (branch body m).bind fun signal m => ?_
      cases signal with
      | normal => exact branch (.loop condition body) m
      | returned value => exact .same _ m
    · exact .same _ m
  | function declaration => exact .same _ m
  | ret keyword value => exact (option value m).bind fun _ m => .same _ m
  | classDecl name superclass methods statics =>
    exact Extends.bind (ih (.declareClass name superclass methods statics) m) fun _ m => .same _ m

theorem apply_extends (callee : Value) (arguments : List Value) (m : Machine) :
    Extends (apply (depth + 1) callee arguments) (apply (depth + 1 + 1) callee arguments) m := by
  cases callee with
  | function id code => exact ih (.invoke code arguments) m
  | classRef c =>
    rw [apply, apply]
    refine .behind (newObject c) fun object m => ?_
    cases c.constructor? with
    | none => exact .same _ m
    | some found =>
      refine .behind (Machine.bind found object) fun code m => ?_
      exact Extends.bind (ih (.invoke code arguments) m) fun _ m => .same _ m
  | null | bool | number | string | object => exact .same _ m

theorem invoke_extends (code : Closure) (arguments : List Value) (m : Machine) :
    Extends (invoke (depth + 1) code arguments) (invoke (depth + 1 + 1) code arguments) m := by
  refine .behind (openScope code.scope []) fun scope m => ?_
  refine .behind (bindArguments scope code.declaration.params arguments) fun _ m => ?_
  exact (Extends.within (ih (.stmts code.declaration.body) _)).bind fun _ m => .same _ m

theorem declareClass_extends (name : Token) (superclass : Option Expr)
    (methods statics : List FunctionDecl) (m : Machine) :
    Extends (declareClass (depth + 1) name superclass methods statics)
      (declareClass (depth + 1 + 1) name superclass methods statics) m := by
  refine .behind (define name .null false) fun _ m => ?_
  exact Extends.bind (ih (.superclass superclass) m) fun _ m => .same _ m

end Tasks

theorem perform_extends (depth : Nat) (t : Task) (m : Machine) :
    Extends (perform depth t) (perform (depth + 1) t) m := by
  induction depth generalizing t m with
  | zero => cases t <;> exact .inr ⟨m, rfl⟩
  | succ depth ih =>
    cases t with
    | expr e => exact evaluate_extends ih e m
    | exprs es =>
      cases es with
      | nil => exact .same _ m
      | cons e es =>
        refine Extends.bind (ih (.expr e) m) fun _ m => ?_
        exact Extends.bind (ih (.exprs es) m) fun _ m => .same _ m
    | option e =>
      cases e with
      | none => exact .same _ m
      | some e => exact ih (.expr e) m
    | superclass e =>
      cases e with
      | none => exact .same _ m
      | some e => exact Extends.bind (ih (.expr e) m) fun _ m => .same _ m
    | apply callee arguments => exact apply_extends ih callee arguments m
    | invoke code arguments => exact invoke_extends ih code arguments m
    | stmt s => exact execute_extends ih s m
    | stmts ss =>
      cases ss with
      | nil => exact .same _ m
      | cons s ss =>
        refine Extends.bind (ih (.stmt s) m) fun signal m => ?_
        cases signal with
        | normal => exact ih (.stmts ss) m
        | returned value => exact .same _ m
    | declareClass name superclass methods statics =>
      exact declareClass_extends ih name superclass methods statics m

/-- How a step ends. -/
abbrev Outcome (α : Type) := EStateM.Result Stop Machine α

/-- The step did not go too deep. -/
def Settled : Outcome α → Prop
  | .error .tooDeep _ => False
  | _ => True

/-- Whatever the steps come to at a depth they come to at the next one. -/
def Deepening (steps : Nat → Run α) : Prop := ∀ depth m, Extends (steps depth) (steps (depth + 1)) m

/-- The steps come to this at some depth, and so at all larger ones. -/
def Comes (steps : Nat → Run α) (m : Machine) (r : Outcome α) : Prop :=
  ∃ depth, steps depth m = r ∧ Settled r

section Outcomes

variable {steps : Nat → Run α} {r r' : Outcome α}

theorem Deepening.perform (t : Task) : Deepening (Machine.perform · t) := fun depth m =>
  perform_extends depth t m

theorem Deepening.evaluate (e : Expr) : Deepening (Machine.evaluate · e) := .perform (.expr e)

theorem Deepening.execute (s : Stmt) : Deepening (Machine.execute · s) := .perform (.stmt s)

theorem Deepening.executeAll (ss : List Stmt) : Deepening (Machine.executeAll · ss) :=
  .perform (.stmts ss)

theorem Deepening.const (step : Run α) : Deepening fun _ => step := fun _ m => .same step m

/-- What the steps come to at some depth they come to at any larger depth. -/
theorem Deepening.later (h : Deepening steps) {depth depth' : Nat} (hd : depth ≤ depth')
    (hs : Settled (steps depth m)) : steps depth' m = steps depth m := by
  induction hd with
  | refl => rfl
  | @step depth' _ ih =>
    obtain deeper | ⟨m', stopped⟩ := h depth' m
    · exact deeper.trans ih
    · rw [← ih, stopped] at hs
      exact hs.elim

theorem comes_const (step : Run α) : Comes (fun _ => step) m r ↔ step m = r ∧ Settled r := by
  constructor
  · rintro ⟨_, h⟩
    exact h
  · exact fun h => ⟨0, h⟩

/-- What goes too deep at no depth does not need the first one. -/
theorem comes_succ (hzero : ∀ m, steps 0 m = .error .tooDeep m) :
    Comes steps m r ↔ Comes (fun depth => steps (depth + 1)) m r := by
  constructor
  · rintro ⟨_ | depth, rfl, hs⟩
    · rw [hzero] at hs
      exact hs.elim
    · exact ⟨depth, rfl, hs⟩
  · rintro ⟨depth, h⟩
    exact ⟨depth + 1, h⟩

theorem bind_result {step : Run α} {next : α → Run β} {r : Outcome β} :
    (step >>= next) m = r ↔ (∃ stop m', step m = .error stop m' ∧ r = .error stop m') ∨
      ∃ a m', step m = .ok a m' ∧ next a m' = r := by
  cases hs : step m with
  | ok a m' =>
    rw [bind_of_ok hs]
    refine ⟨fun h => .inr ⟨a, m', rfl, h⟩, ?_⟩
    rintro (⟨_, _, h, -⟩ | ⟨_, _, h, hn⟩) <;> cases h
    exact hn
  | error stop m' =>
    rw [bind_of_error hs]
    exact ⟨fun h => .inl ⟨stop, m', rfl, h.symm⟩, by
      rintro (⟨_, _, h, hr⟩ | ⟨_, _, h, -⟩) <;> cases h; exact hr.symm⟩

/-- Steps one behind the other: the first ones fail, or the others go on from where they ended. -/
theorem comes_bind {next : Nat → α → Run β} {r : Outcome β} (hf : Deepening steps)
    (hn : ∀ a, Deepening (next · a)) : Comes (fun depth => steps depth >>= next depth) m r ↔
      (∃ stop m', Comes steps m (.error stop m') ∧ r = .error stop m') ∨
        ∃ a m', Comes steps m (.ok a m') ∧ Comes (next · a) m' r := by
  constructor
  · rintro ⟨depth, h, hs⟩
    obtain ⟨stop, m', he, rfl⟩ | ⟨a, m', ha, hr⟩ := bind_result.mp h
    · exact .inl ⟨stop, m', ⟨depth, he, by cases stop <;> exact hs⟩, rfl⟩
    · exact .inr ⟨a, m', ⟨depth, ha, trivial⟩, depth, hr, hs⟩
  · rintro (⟨stop, m', ⟨depth, he, hs⟩, rfl⟩ | ⟨a, m', ⟨depth, ha, hs⟩, depth', hr, hs'⟩)
    · exact ⟨depth, bind_of_error he, by cases stop <;> exact hs⟩
    · have second : Settled (next depth' a m') := by
        rw [← hr] at hs'
        exact hs'
      refine ⟨max depth depth', bind_result.mpr (.inr ⟨a, m', ?_, ?_⟩), hs'⟩
      · exact (hf.later (Nat.le_max_left _ _) (ha ▸ hs)).trans ha
      · exact ((hn a).later (Nat.le_max_right _ _) second).trans hr

end Outcomes

/-- The same outcome back in another scope. -/
def Outcome.back (outer : ScopeId) : Outcome α → Outcome α
  | .ok a m => .ok a { m with current := outer }
  | .error stop m => .error stop { m with current := outer }

/-- The machine in a new scope inside the current one. -/
def entered (m : Machine) : Machine :=
  { m with scopes := ⟨m.scopes.all.push ⟨[], some m.current⟩⟩, current := m.scopes.all.size }

section Rules

variable {r : Outcome Signal}

theorem settled_back {outer : ScopeId} {r : Outcome α} : Settled (r.back outer) ↔ Settled r := by
  cases r with
  | ok => rfl
  | error stop => cases stop <;> rfl

/-- Once something comes of the steps, nothing else is made of a result than `next` makes of it. -/
theorem comes_pure {a : α} {r : Outcome α} :
    Comes (fun _ => (pure a : Run α)) m r ↔ r = .ok a m := by
  rw [comes_const]
  constructor
  · rintro ⟨rfl, -⟩
    rfl
  · rintro rfl
    exact ⟨rfl, trivial⟩

theorem comes_literal (value : Literal) {r : Outcome Value} :
    Comes (evaluate · (.literal value)) m r ↔ r = .ok (.ofLiteral value) m :=
  (comes_succ fun _ => rfl).trans comes_pure

/-- The statement of an expression is executed by evaluating it. -/
theorem comes_expression {e : Expr} : Comes (execute · (.expr e)) m r ↔
    (∃ stop m', Comes (evaluate · e) m (.error stop m') ∧ r = .error stop m') ∨
      ∃ v m', Comes (evaluate · e) m (.ok v m') ∧ r = .ok .normal m' := by
  refine (comes_succ fun _ => rfl).trans ((comes_bind (.evaluate e) fun _ => .const _).trans ?_)
  simp only [comes_pure]

/-- A block is executed in a new scope. -/
theorem comes_block {body : List Stmt} : Comes (execute · (.block body)) m r ↔
    ∃ r', Comes (executeAll · body) m.entered r' ∧ r = r'.back m.current := by
  have run (depth : Nat) : execute (depth + 1) (.block body) m =
      Outcome.back m.current (executeAll depth body m.entered) := by
    have whole : execute (depth + 1) (.block body) m =
      within m.scopes.all.size (executeAll depth body)
        { m with scopes := ⟨m.scopes.all.push ⟨[], some m.current⟩⟩ } := rfl
    rw [whole, within_eq]
    unfold Outcome.back entered
    cases executeAll depth body _ <;> rfl
  refine (comes_succ fun _ => rfl).trans ?_
  constructor
  · rintro ⟨depth, rfl, hs⟩
    refine ⟨executeAll depth body m.entered, ⟨depth, rfl, ?_⟩, run depth⟩
    dsimp only at hs
    rwa [run, settled_back] at hs
  · rintro ⟨r', ⟨depth, rfl, hs⟩, rfl⟩
    exact ⟨depth, run depth, settled_back.mpr hs⟩

/-- What follows a statement is left out if the statement fails or returns. -/
theorem comes_unless_returned {s : Stmt} {next : Nat → Run Signal} (hn : Deepening next) :
    Comes (fun depth => do
      match ← execute depth s with
      | .returned value => return .returned value
      | .normal => next depth) m r ↔
    (∃ stop m', Comes (execute · s) m (.error stop m') ∧ r = .error stop m') ∨
      (∃ v m', Comes (execute · s) m (.ok (.returned v) m') ∧ r = .ok (.returned v) m') ∨
        ∃ m', Comes (execute · s) m (.ok .normal m') ∧ Comes next m' r := by
  refine (comes_bind (.execute s) fun signal => ?_).trans (or_congr_right ?_)
  · cases signal with
    | normal => exact hn
    | returned value => exact .const _
  · constructor
    · rintro ⟨signal, m', hs, hr⟩
      cases signal with
      | normal => exact .inr ⟨m', hs, hr⟩
      | returned value => exact .inl ⟨value, m', hs, comes_pure.mp hr⟩
    · rintro (⟨v, m', hs, rfl⟩ | ⟨m', hs, hr⟩)
      · exact ⟨.returned v, m', hs, comes_pure.mpr rfl⟩
      · exact ⟨.normal, m', hs, hr⟩

theorem comes_nothing : Comes (executeAll · []) m r ↔ r = .ok .normal m :=
  (comes_succ fun _ => rfl).trans comes_pure

theorem comes_statements {s : Stmt} {ss : List Stmt} : Comes (executeAll · (s :: ss)) m r ↔
    (∃ stop m', Comes (execute · s) m (.error stop m') ∧ r = .error stop m') ∨
      (∃ v m', Comes (execute · s) m (.ok (.returned v) m') ∧ r = .ok (.returned v) m') ∨
        ∃ m', Comes (execute · s) m (.ok .normal m') ∧ Comes (executeAll · ss) m' r :=
  (comes_succ fun _ => rfl).trans (comes_unless_returned (.executeAll ss))

theorem comes_single {s : Stmt} : Comes (executeAll · [s]) m r ↔ Comes (execute · s) m r := by
  rw [comes_statements]
  simp only [comes_nothing]
  cases r with
  | error stop m' => simp
  | ok signal m' => cases signal <;> simp

theorem comes_pair {s s' : Stmt} : Comes (executeAll · [s, s']) m r ↔
    (∃ stop m', Comes (execute · s) m (.error stop m') ∧ r = .error stop m') ∨
      (∃ v m', Comes (execute · s) m (.ok (.returned v) m') ∧ r = .ok (.returned v) m') ∨
        ∃ m', Comes (execute · s) m (.ok .normal m') ∧ Comes (execute · s') m' r := by
  rw [comes_statements]
  simp only [comes_single]

/-- A loop whose condition fails, or does not hold, has ended; otherwise its body is executed and
the loop behind it. -/
theorem comes_loop {condition : Expr} {body : Stmt} : Comes (execute · (.loop condition body)) m r ↔
    (∃ stop m', Comes (evaluate · condition) m (.error stop m') ∧ r = .error stop m') ∨
      (∃ v m', Comes (evaluate · condition) m (.ok v m') ∧ v.truthy = false ∧ r = .ok .normal m') ∨
        ∃ v m', Comes (evaluate · condition) m (.ok v m') ∧ v.truthy = true ∧
          Comes (executeAll · [body, .loop condition body]) m' r := by
  have deepening (v : Value) : Deepening fun depth => (if v.truthy then do
        match ← execute depth body with
        | .returned value => return .returned value
        | .normal => execute depth (.loop condition body)
      else return .normal : Run Signal) := by
    intro depth m
    split
    · refine Extends.bind (perform_extends depth (.stmt body) m) fun signal m => ?_
      cases signal with
      | normal => exact perform_extends depth (.stmt (.loop condition body)) m
      | returned value => exact .same _ m
    · exact .same _ m
  refine (comes_succ fun _ => rfl).trans ((comes_bind (.evaluate condition) deepening).trans
    (or_congr_right ?_))
  constructor
  · rintro ⟨v, m', hc, hr⟩
    cases ht : v.truthy with
    | false =>
      simp only [ht, Bool.false_eq_true, if_false, comes_pure] at hr
      exact .inl ⟨v, m', hc, ht, hr⟩
    | true =>
      simp only [ht, if_true, comes_unless_returned (.execute (.loop condition body))] at hr
      exact .inr ⟨v, m', hc, ht, comes_pair.mpr hr⟩
  · rintro (⟨v, m', hc, ht, rfl⟩ | ⟨v, m', hc, ht, hr⟩)
    · refine ⟨v, m', hc, ?_⟩
      simp only [ht, Bool.false_eq_true, if_false, comes_pure]
    · refine ⟨v, m', hc, ?_⟩
      simp only [ht, if_true, comes_unless_returned (.execute (.loop condition body))]
      exact comes_pair.mp hr

end Rules

end Machine

end ClassScript
