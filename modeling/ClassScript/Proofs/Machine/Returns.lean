import ClassScript.Proofs.Machine.Faults
import ClassScript.Proofs.Machine.Receivers

/-! Where `return` leads. A statement ends by a return only if a `return` of the same routine stands
in it. So no statement of an accepted program returns at the top level, and no call of a constructor
gives a value. -/
namespace ClassScript

namespace Machine

section Text

variable {program : List Stmt} {frames : List Scoping.Frame} {v : Value}

/-- The value is that of a `return` of the routine that is the innermost of these frames. -/
def ReturnsIn (program : List Stmt) (frames : List Scoping.Frame) (v : Value) : Prop :=
  ∃ keyword value inner, StandsIn program (.stmt (.ret keyword value)) inner ∧
    inner.find? Scoping.Frame.isRoutine = frames.find? Scoping.Frame.isRoutine ∧
    ∃ d m m', evaluateOption d value m = .ok v m'

/-- Returns of statements that stand in these frames are returns of the same routine. -/
def ReturnsInside (program : List Stmt) (depth : Nat) : Prop :=
  ∀ frames v m m',
    (∀ s, StandsIn program (.stmt s) frames → execute depth s m = .ok (.returned v) m' →
      ReturnsIn program frames v) ∧
    ∀ ss : List Stmt, (∀ s ∈ ss, StandsIn program (.stmt s) frames) →
      executeAll depth ss m = .ok (.returned v) m' → ReturnsIn program frames v

section Step

variable {depth : Nat} {m m' : Machine} (ih : ReturnsInside program depth)

include ih

theorem execute_returns {s : Stmt} (hs : StandsIn program (.stmt s) frames)
    (h : execute (depth + 1) s m = .ok (.returned v) m') : ReturnsIn program frames v := by
  cases s with
  | expr e =>
    obtain ⟨_, _, _, h⟩ := bind_ok.mp h
    cases h
  | classDecl name superclass methods statics =>
    obtain ⟨_, _, _, h⟩ := bind_ok.mp h
    cases h
  | print e =>
    obtain ⟨_, _, _, h⟩ := bind_ok.mp h
    obtain ⟨_, _, _, h⟩ := bind_ok.mp h
    cases h
  | letDecl name initializer =>
    obtain ⟨_, _, _, h⟩ := bind_ok.mp h
    obtain ⟨_, _, _, h⟩ := bind_ok.mp h
    cases h
  | constDecl name initializer =>
    obtain ⟨_, _, _, h⟩ := bind_ok.mp h
    obtain ⟨_, _, _, h⟩ := bind_ok.mp h
    cases h
  | function declaration =>
    obtain ⟨_, _, _, h⟩ := bind_ok.mp h
    obtain ⟨_, _, _, h⟩ := bind_ok.mp h
    obtain ⟨_, _, _, h⟩ := bind_ok.mp h
    cases h
  | block body =>
    -- a block is no routine, so the innermost routine in it is that around it
    obtain ⟨_, _, _, h⟩ := bind_ok.mp h
    obtain ⟨_, _, _, h⟩ := bind_ok.mp h
    obtain ⟨_, h⟩ := within_ok h
    have inner : ReturnsIn program (.block body :: frames) v :=
      (ih _ _ _ _).2 body (fun s hb => hs.inside (List.mem_singleton_self _) hb) h
    exact inner
  | cond condition thenBranch elseBranch =>
    obtain ⟨c, _, _, h⟩ := bind_ok.mp h
    split at h
    · exact (ih _ _ _ _).1 thenBranch (hs.branch List.mem_cons_self) h
    · cases elseBranch with
      | none => cases h
      | some elseBranch =>
        exact (ih _ _ _ _).1 elseBranch (hs.branch (by simp [Stmt.branches])) h
  | loop condition body =>
    obtain ⟨c, _, _, h⟩ := bind_ok.mp h
    split at h
    · obtain ⟨signal, _, hb, h⟩ := bind_ok.mp h
      cases signal with
      | normal => exact (ih _ _ _ _).1 (.loop condition body) hs h
      | returned value =>
        cases h
        exact (ih _ _ _ _).1 body (hs.branch List.mem_cons_self) hb
    · cases h
  | ret keyword value =>
    obtain ⟨_, _, hv, h⟩ := bind_ok.mp h
    cases h
    exact ⟨keyword, value, frames, hs, rfl, _, _, _, hv⟩

theorem executeAll_returns {ss : List Stmt} (hs : ∀ s ∈ ss, StandsIn program (.stmt s) frames)
    (h : executeAll (depth + 1) ss m = .ok (.returned v) m') : ReturnsIn program frames v := by
  cases ss with
  | nil => cases h
  | cons s ss =>
    obtain ⟨signal, _, he, h⟩ := bind_ok.mp h
    cases signal with
    | normal => exact (ih _ _ _ _).2 ss (fun s hm => hs s (List.mem_cons_of_mem _ hm)) h
    | returned value =>
      cases h
      exact (ih _ _ _ _).1 s (hs s List.mem_cons_self) he

end Step

theorem returnsInside (program : List Stmt) (depth : Nat) : ReturnsInside program depth := by
  induction depth with
  | zero => exact fun _ _ _ _ => ⟨nofun, nofun⟩
  | succ depth ih =>
    exact fun _ _ _ _ => ⟨fun _ hs => execute_returns ih hs, fun _ hs => executeAll_returns ih hs⟩

/-- No statement at the top level ends by a return. -/
theorem not_returnsIn_topLevel (hw : Scoping.WellFormed program) : ¬ ReturnsIn program [] v := by
  rintro ⟨keyword, value, _, ⟨around, stands, rfl⟩, same, -⟩
  have inside := hw.returns stands
  rw [Scoping.routine?, same] at inside
  cases inside

/-- What a `return` of a constructor gives is `null`. -/
theorem ReturnsIn.eq_null {frame : Scoping.Frame} (h : ReturnsIn program (frame :: frames) v)
    (hw : Scoping.WellFormed program) (hf : frame.isRoutine) (hc : frame.isConstructor) :
    v = .null := by
  obtain ⟨keyword, value, _, ⟨around, stands, rfl⟩, same, d, m, m', hv⟩ := h
  rw [List.find?_cons_of_pos hf] at same
  cases value with
  | some e => cases hc.symm.trans (hw.constructors stands same)
  | none =>
    cases d <;> cases hv
    rfl

end Text

section Constructors

variable {source : List UInt8} {sink : Sink} {program : List Stmt} {depth : Nat}
  {past : Moment → Prop} {now : Moment} {code method : Closure} {receiver : Value} {owner : Class}
  {m m' : Machine}

/-- A routine that was bound during a run is a method of a class that the program declares. -/
theorem BoundTo.stands (h : BoundTo (During sink program depth) code method receiver owner) :
    ∃ s superclass frames, StandsIn program (.stmt s) frames ∧
      .method superclass receiver.isClass code.declaration ∈ s.frames := by
  obtain ⟨now, before, c, name, ran, binds, -, suffix, -, member⟩ := h.event
  have lawful : (origins (During sink program depth) program).Lawful := origins_lawful .tail
  have family := ran.inOrder.family lawful binds
  obtain ⟨front, chain⟩ := suffix
  rw [← chain] at family
  obtain ⟨declared, -⟩ := lawful.family_suffix family
  obtain ⟨s, superclass, frames, text, frame, -⟩ := Declared.method declared member
  exact ⟨s, superclass, frames, text, h.declaration ▸ frame⟩

theorem invoke_returns {d : Nat} {arguments : List Value} {v : Value} {frames : List Scoping.Frame}
    (hs : ∀ s ∈ code.declaration.body, StandsIn program (.stmt s) frames)
    (h : invoke d code arguments m = .ok v m') : v = .null ∨ ReturnsIn program frames v := by
  cases d with
  | zero => cases h
  | succ d =>
    obtain ⟨scope, _, _, h⟩ := bind_ok.mp h
    obtain ⟨_, _, _, h⟩ := bind_ok.mp h
    obtain ⟨signal, _, hb, h⟩ := bind_ok.mp h
    obtain ⟨_, body⟩ := within_ok hb
    cases signal with
    | normal =>
      cases h
      exact .inl rfl
    | returned value =>
      cases h
      exact .inr ((returnsInside program d _ _ _ _).2 _ hs body)

end Constructors

section Programs

variable {source : List UInt8} {sink : Sink} {program : List Stmt}

/-- No statement of an accepted program ends by a return. So its run executes all of them and
flushes, unless it stops with an error or nests too deep. Every call of what was bound from an
instance method of the name that constructors have gives `null` if it completes. -/
theorem returns_inside (hp : parse source = .ok program)
    (ha : ((fresh sink).analyze program).1 = []) :
    (∀ s ∈ program, ∀ d m v m', execute d s m ≠ .ok (.returned v) m') ∧
    (∀ depth, (∃ m', Completes depth program ((fresh sink).analyze program).2 m' ∧
        interpret depth program ((fresh sink).analyze program).2 = onSink Sink.flush m') ∨
      ∃ m', (∃ e, run depth source (fresh sink) = (.failed [.runtime e], m')) ∨
        run depth source (fresh sink) = (.tooDeep, m')) ∧
    ∀ depth code method receiver owner,
      BoundTo (During sink program depth) code method receiver owner → receiver.isClass = false →
      method.name = constructorName → ∀ d arguments m v m', invoke d code arguments m = .ok v m' →
      v = .null := by
  have wellFormed := (Scoping.Analyzed.of_source hp ha).wellFormed
  have outermost : ∀ s ∈ program, StandsIn program (.stmt s) [] := fun s hs => .topLevel hs
  refine ⟨?_, ?_, ?_⟩
  · intro s hs d m v m' h
    exact not_returnsIn_topLevel wellFormed
      ((returnsInside program d _ _ _ _).1 s (outermost s hs) h)
  · intro depth
    cases he : executeAll depth program ((fresh sink).analyze program).2 with
    | ok signal m' =>
      cases signal with
      | normal =>
        have executed : executeProgram depth program ((fresh sink).analyze program).2 = .ok () m' :=
          bind_of_ok he
        exact .inl ⟨m', .of_normal he, interpret_of_ok executed⟩
      | returned v =>
        exact absurd ((returnsInside program depth _ _ _ _).2 program outermost he)
          (not_returnsIn_topLevel wellFormed)
    | error stop m' =>
      have stopped : interpret depth program ((fresh sink).analyze program).2 = .error stop m' :=
        interpret_of_error (bind_of_error he)
      refine .inr ⟨m', ?_⟩
      rw [run_accepted hp ha, stopped]
      cases stop with
      | error e => exact .inl ⟨e, rfl⟩
      | tooDeep => exact .inr rfl
  · intro depth code method receiver owner bound instance_ named d arguments m v m' h
    obtain ⟨s, superclass, frames, text, frame⟩ := bound.stands
    rw [instance_] at frame
    rcases invoke_returns (fun b hb => text.inside frame hb) h with rfl | returns
    · rfl
    · refine returns.eq_null wellFormed rfl ?_
      rw [Closure.name, ← bound.declaration] at named
      simp [Scoping.Frame.isConstructor, named]

namespace Constructing

/-- The constructor has a function that returns a value, and returns after it. -/
def text : List UInt8 := Text.encode
  ("class A \x7b constructor() \x7b function f() \x7b return true; \x7d return; \x7d \x7d A();")

def method : FunctionDecl :=
  ⟨word "constructor", [], [.function (returning "f" (.literal (.bool true))),
    .ret ⟨.symbol .returnWord, "return", 1⟩ none]⟩

def declaration : Stmt := .classDecl (word "A") none [method] []

def instantiation : Expr := .call (.var 0 (word "A")) closing []

def statements : List Stmt := [declaration, .expr instantiation]

def declared : Machine := ending (execute 19 declaration (start statements))

def made : Class := ⟨⟨0, "A", .ofDeclarations topLevel [method], []⟩, []⟩

/-- The constructor as it is bound to the new object. -/
def bound : Closure := ⟨method, 2⟩

theorem parsed : parse text = .ok statements := by
  with_unfolding_all rfl

theorem accepted : ((fresh .unlimited).analyze statements).1 = [] := by
  with_unfolding_all rfl

theorem instantiated : During .unlimited statements 20
    ⟨16, .apply (.classRef made) [], declared⟩ := by
  have executed : execute 19 declaration (start statements) = .ok .normal declared := by
    with_unfolding_all rfl
  have found : evaluate 16 (.var 0 (word "A")) declared = .ok (.classRef made) declared := by
    with_unfolding_all rfl
  exact .head (.rest executed) (.head .statement (.head .expression
    (.head (.applied found rfl rfl rfl) .refl)))

theorem boundTo : BoundTo (During .unlimited statements 20) bound ⟨method, topLevel⟩
    (.object 0 made) made := by
  have created : newObject made declared =
    .ok (.object 0 made) (ending (newObject made declared)) := by
    with_unfolding_all rfl
  have size : declared.scopes.all.size = bound.scope := by
    with_unfolding_all rfl
  exact ⟨rfl, _, _, _, _, instantiated, .construction created, size, List.suffix_refl _, rfl, rfl⟩

/-- Where the bound constructor is called. -/
def constructing : Machine :=
  ending (bind ⟨⟨method, topLevel⟩, none⟩ (.object 0 made) (ending (newObject made declared)))

theorem completed :
    invoke 15 bound [] constructing = .ok .null (ending (invoke 15 bound [] constructing)) := by
  with_unfolding_all rfl

end Constructing

theorem returns_inside_constructor :
    BoundTo (During .unlimited Constructing.statements 20) Constructing.bound
        ⟨Constructing.method, topLevel⟩ (.object 0 Constructing.made) Constructing.made ∧
      (∃ m', invoke 15 Constructing.bound [] Constructing.constructing = .ok .null m') ∧
      (∀ d m v m', execute d Constructing.declaration m ≠ .ok (.returned v) m') ∧
      ∀ d arguments m v m', invoke d Constructing.bound arguments m = .ok v m' → v = .null :=
  have inside := returns_inside Constructing.parsed Constructing.accepted
  ⟨Constructing.boundTo, ⟨_, Constructing.completed⟩, inside.1 _ List.mem_cons_self,
    inside.2.2 _ _ _ _ _ Constructing.boundTo rfl rfl⟩

end Programs

end Machine

end ClassScript
