import ClassScript.Proofs.Machine.Extent
import ClassScript.Proofs.Machine.Successors

/-! The calls of a task follow one another: each has ended when the next one begins, and all have
when the task ends. -/
namespace ClassScript

namespace Machine

variable {α β : Type} {m m' : Machine} {d : Nat}

/-- The task has ended with a result, and the machine has come so far since. -/
def Moment.Passed (now : Moment) (m : Machine) : Prop :=
  ∃ v m', perform now.depth now.task now.machine = .ok v m' ∧ m'.extent.Later m.extent

theorem Moment.Passed.mono {now : Moment} (h : now.Passed m) (hl : m.extent.Later m'.extent) :
    now.Passed m' := by
  obtain ⟨v, m₁, done, later⟩ := h
  exact ⟨v, m₁, done, trans_of Extent.Later later hl⟩

/-- The step performs these tasks, one after the other. -/
structure Traces (step : Run α) (m : Machine) (calls : List Moment) : Prop where
  grows : Grows step m
  begun : ∀ now ∈ calls, m.extent.Later now.machine.extent
  ordered : calls.Pairwise fun now next => now.Passed next.machine
  ended : ∀ a m', step m = .ok a m' → ∀ now ∈ calls, now.Passed m'

namespace Traces

variable {step : Run α} {next : α → Run β} {calls : List Moment} {more : α → Machine → List Moment}

theorem none (h : Grows step m) : Traces step m [] :=
  ⟨h, List.forall_mem_nil _, .nil, fun _ _ _ => List.forall_mem_nil _⟩

theorem congr {other : Run α} (h : Traces other m calls) (hs : step m = other m) :
    Traces step m calls := by
  obtain ⟨grows, begun, ordered, ended⟩ := h
  rw [Grows, ← hs] at grows
  exact ⟨grows, begun, ordered, hs ▸ ended⟩

theorem call (t : Task) : Traces (perform d t) m [⟨d, t, m⟩] := by
  refine ⟨perform_grows m d t, ?_, List.pairwise_singleton _ _, ?_⟩
  · exact List.forall_mem_singleton.mpr (refl_of Extent.Later _)
  · exact fun a m' ha => List.forall_mem_singleton.mpr ⟨a, m', ha, refl_of Extent.Later _⟩

theorem bind (h : Traces step m calls)
    (hn : ∀ a m', step m = .ok a m' → Traces (next a) m' (more a m')) :
    Traces (step >>= next) m (calls ++ after (step m) more) := by
  cases hs : step m with
  | error stop m' =>
    have grows := h.grows
    rw [Grows, hs] at grows
    refine ⟨?_, ?_, ?_, ?_⟩
    · rwa [Grows, bind_of_error hs]
    · rw [after, List.append_nil]
      exact h.begun
    · rw [after, List.append_nil]
      exact h.ordered
    · intro b m'' hb
      rw [bind_of_error hs] at hb
      cases hb
  | ok a m' =>
    have first := h.grows.ok hs
    have second := hn a m' hs
    have passed := h.ended a m' hs
    refine ⟨?_, ?_, ?_, ?_⟩
    · rw [Grows, bind_of_ok hs]
      exact trans_of Extent.Later first second.grows
    · refine List.forall_mem_append.mpr ⟨h.begun, fun now hm => ?_⟩
      exact trans_of Extent.Later first (second.begun now hm)
    · refine List.pairwise_append.mpr ⟨h.ordered, second.ordered, fun now hm later hl => ?_⟩
      exact (passed now hm).mono (second.begun later hl)
    · intro b m'' hb
      rw [bind_of_ok hs] at hb
      refine List.forall_mem_append.mpr ⟨fun now hm => ?_, second.ended b m'' hb⟩
      exact (passed now hm).mono (second.grows.ok hb)

/-- Behind these tasks no others are performed. -/
theorem alone (h : Traces step m calls) (hn : ∀ a m', step m = .ok a m' → Grows (next a) m') :
    Traces (step >>= next) m calls := by
  have traces : Traces (step >>= next) m (calls ++ after (step m) fun _ _ => []) :=
    h.bind fun a m' ha => none (hn a m' ha)
  rwa [after_nothing, List.append_nil] at traces

/-- A task is performed, and then what its result makes of it. -/
theorem calling (t : Task) {next : t.Result → Run β} {more : t.Result → Machine → List Moment}
    (hn : ∀ v m', perform d t m = .ok v m' → Traces (next v) m' (more v m')) :
    Traces (perform d t >>= next) m (⟨d, t, m⟩ :: after (perform d t m) more) := (call t).bind hn

/-- Steps that perform no task come first. -/
theorem behind (h : Grows step m)
    (hn : ∀ a m', step m = .ok a m' → Traces (next a) m' (more a m')) :
    Traces (step >>= next) m (after (step m) more) := (none h).bind hn

theorem within {scope : ScopeId} (h : Traces step { m with current := scope } calls) :
    Traces (within scope step) m calls := by
  have size := h.grows
  refine ⟨?_, h.begun, h.ordered, fun a m' ha => ?_⟩
  · rw [Grows, within_eq]
    rw [Grows] at size
    split <;> rename_i hs <;> rw [hs] at size <;> exact size
  · rw [within_eq] at ha
    split at ha
    · rename_i hs
      cases ha
      exact fun now hm => (h.ended _ _ hs now hm)
    · cases ha

end Traces

theorem evaluate_traces (e : Expr) : Traces (evaluate (d + 1) e) m (exprCalls d m e) := by
  cases e with
  | literal value => exact .none (pure_grows m _)
  | var id name => exact .none (lookup_grows m _ _ _)
  | thisRef id keyword => exact .none (lookup_grows m _ _ _)
  | superMethod id keyword method => exact .none (superMember_grows m _ _ _)
  | group e => exact .call (.expr e)
  | assign id name e =>
    rw [evaluate]
    exact .alone (.call (.expr e)) fun v m' _ => (assign_grows m' id name v).bind fun _ m'' _ =>
      pure_grows m'' v
  | unary operator e =>
    rw [evaluate]
    exact .alone (.call (.expr e)) fun v m' _ => ofExcept_grows m' _ _
  | property e name =>
    rw [evaluate]
    exact .alone (.call (.expr e)) fun v m' _ => property_grows m' v name
  | binary left operator right =>
    rw [evaluate]
    split
    · rename_i isCoalesce
      refine .calling (.expr left) fun v m' _ => ?_
      rw [isCoalesce, Bool.true_and]
      cases v.isNull with
      | false => exact .none (pure_grows m' v)
      | true => exact .call (.expr right)
    · rename_i isOther
      refine .calling (.expr left) fun v m' _ => ?_
      rw [Bool.eq_false_iff.mpr isOther, Bool.false_and]
      exact .alone (.call (.expr right)) fun w m'' _ => ofExcept_grows m'' _ _
  | logical left operator right =>
    rw [evaluate]
    refine .calling (.expr left) fun v m' _ => ?_
    cases settles operator v with
    | true => exact .none (pure_grows m' v)
    | false => exact .call (.expr right)
  | call callee paren arguments =>
    rw [evaluate]
    refine .calling (.expr callee) fun v m₁ _ => ?_
    cases v.callable? with
    | none => exact .none (fault_grows m₁ _ _)
    | some signature =>
      refine .calling (.exprs arguments) fun vs m₂ _ => ?_
      by_cases hn : vs.length = signature.2
      · simp only [bne_iff_ne, ne_eq, hn, not_true_eq_false, if_false, if_true]
        exact .call (.apply v vs)
      · simp only [bne_iff_ne, ne_eq, hn, not_false_eq_true, if_true, if_false]
        exact .none (fault_grows m₂ _ _)
  | setProperty object name value =>
    rw [evaluate]
    refine .calling (.expr object) fun v m' _ => ?_
    cases v with
    | object id c =>
      exact .alone (.call (.expr value)) fun w m'' _ =>
        (setField_grows m'' id name.lexeme w).bind fun _ m₃ _ => pure_grows m₃ w
    | null | bool | number | string | function | classRef => exact .none (fault_grows m' _ _)

theorem apply_traces (callee : Value) (arguments : List Value) :
    Traces (apply (d + 1) callee arguments) m (applyCalls d m arguments callee) := by
  cases callee with
  | function id code => exact .call (.invoke code arguments)
  | classRef c =>
    rw [apply, applyCalls]
    refine .behind (newObject_grows m c) fun object m₁ _ => ?_
    cases c.constructor? with
    | none => exact .none (pure_grows m₁ object)
    | some found =>
      refine .behind (bind_grows m₁ found object) fun code m₂ _ => ?_
      exact .alone (.call (.invoke code arguments)) fun _ m₃ _ => pure_grows m₃ object
  | null | bool | number | string | object => exact .none (pure_grows m _)

theorem execute_traces (s : Stmt) : Traces (execute (d + 1) s) m (stmtCalls d m s) := by
  cases s with
  | expr e =>
    rw [execute]
    exact .alone (.call (.expr e)) fun _ m' _ => pure_grows m' _
  | print e =>
    rw [execute]
    exact .alone (.call (.expr e)) fun v m' _ => (print_grows m' v).bind fun _ m'' _ =>
      pure_grows m'' _
  | letDecl name e =>
    rw [execute]
    exact .alone (.call (.option e)) fun v m' _ =>
      (define_grows m' name v false).bind fun _ m'' _ => pure_grows m'' _
  | constDecl name e =>
    rw [execute]
    exact .alone (.call (.expr e)) fun v m' _ => (define_grows m' name v true).bind fun _ m'' _ =>
      pure_grows m'' _
  | block body =>
    have opens : execute (d + 1) (.block body) m = (openScope m.current [] >>= fun scope =>
        within scope (executeAll d body)) m := rfl
    have traces : Traces (openScope m.current [] >>= fun scope => within scope (executeAll d body))
        m (stmtCalls d m (.block body)) :=
      .behind (openScope_grows m _ _) fun scope m' _ => .within (.call (.stmts body))
    exact traces.congr opens
  | cond condition thenBranch elseBranch =>
    refine Traces.calling (.expr condition) fun v m' _ => ?_
    cases v.truthy with
    | true => exact .call (.stmt thenBranch)
    | false =>
      cases elseBranch with
      | none => exact .none (pure_grows m' _)
      | some elseBranch => exact .call (.stmt elseBranch)
  | loop condition body =>
    rw [execute]
    refine .calling (.expr condition) fun v m' _ => ?_
    cases v.truthy with
    | true =>
      refine .calling (.stmt body) fun signal m'' _ => ?_
      cases signal with
      | normal => exact .call (.stmt (.loop condition body))
      | returned value => exact .none (pure_grows m'' _)
    | false => exact .none (pure_grows m' _)
  | function declaration =>
    have makes : execute (d + 1) (.function declaration) m =
        (newFunction ⟨declaration, m.current⟩ >>= fun value =>
          define declaration.name value false >>= fun _ => pure .normal) m := rfl
    refine (Traces.none ?_).congr makes
    refine (newFunction_grows m _).bind fun v m' _ => ?_
    exact (define_grows m' _ v false).bind fun _ m'' _ => pure_grows m'' _
  | ret keyword e =>
    rw [execute]
    exact .alone (.call (.option e)) fun _ m' _ => pure_grows m' _
  | classDecl name superclass methods statics =>
    rw [execute]
    exact .alone (.call (.declareClass name superclass methods statics)) fun _ m' _ =>
      pure_grows m' _

theorem declareClass_traces (name : Token) (superclass : Option Expr)
    (methods statics : List FunctionDecl) :
    Traces (declareClass (d + 1) name superclass methods statics) m
      (Moment.calls ⟨d + 1, .declareClass name superclass methods statics, m⟩) := by
  rw [declareClass]
  refine .behind (define_grows m name .null false) fun _ m₁ _ => ?_
  refine .alone (.call (.superclass superclass)) fun ancestors m₂ _ => ?_
  refine (get_grows m₂).bind fun _ m₃ _ => (newIdentity_grows m₃).bind fun id m₄ _ => ?_
  exact onScopes_grows m₄ Scopes.Steady.assign _

theorem invoke_traces (code : Closure) (arguments : List Value) :
    Traces (invoke (d + 1) code arguments) m (Moment.calls ⟨d + 1, .invoke code arguments, m⟩) := by
  rw [invoke, Moment.calls]
  refine .behind (openScope_grows m _ _) fun scope m₁ _ => ?_
  refine .behind (bindArguments_grows m₁ _ _ _) fun _ m₂ _ => ?_
  refine .alone (.within (.call (.stmts code.declaration.body))) fun signal m₃ _ => ?_
  cases signal <;> exact pure_grows m₃ _

/-- What a task performs are its calls. -/
theorem perform_traces (now : Moment) :
    Traces (perform now.depth now.task) now.machine now.calls := by
  obtain ⟨_ | d, t, m⟩ := now
  · cases t <;> exact .none (throw_grows m _)
  cases t with
  | expr e => exact evaluate_traces e
  | exprs es =>
    cases es with
    | nil => exact .none (pure_grows m _)
    | cons e es =>
      refine Traces.calling (.expr e) fun v m' _ => ?_
      exact .alone (.call (.exprs es)) fun _ m'' _ => pure_grows m'' _
  | option e =>
    cases e with
    | none => exact .none (pure_grows m _)
    | some e => exact .call (.expr e)
  | superclass e =>
    cases e with
    | none => exact .none (pure_grows m _)
    | some e =>
      refine Traces.alone (.call (.expr e)) fun v m' _ => ?_
      cases v with
      | classRef c => exact pure_grows m' _
      | null | bool | number | string | function | object => exact fault_grows m' _ _
  | apply callee arguments => exact apply_traces callee arguments
  | invoke code arguments => exact invoke_traces code arguments
  | stmt s => exact execute_traces s
  | stmts ss =>
    cases ss with
    | nil => exact .none (pure_grows m _)
    | cons s ss =>
      refine Traces.calling (.stmt s) fun signal m' _ => ?_
      cases signal with
      | normal => exact .call (.stmts ss)
      | returned value => exact .none (pure_grows m' _)
  | declareClass name superclass methods statics =>
    exact declareClass_traces name superclass methods statics

end Machine

end ClassScript
