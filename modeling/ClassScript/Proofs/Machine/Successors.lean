import ClassScript.Proofs.Machine.Calls

/-! The calls of a task as a list, in the order of time. They can be computed, and so can all
moments of a run. -/
namespace ClassScript

namespace Machine

variable {α : Type} {m : Machine} {d : Nat} {now next : Moment}

/-- What follows a step that ends with a result. -/
def after (r : EStateM.Result Stop Machine α) (next : α → Machine → List Moment) : List Moment :=
  match r with
  | .ok a m => next a m
  | .error _ _ => []

theorem after_nothing (r : EStateM.Result Stop Machine α) : after r (fun _ _ => []) = [] := by
  cases r <;> rfl

section Calls

variable (d : Nat) (m : Machine)

def exprCalls : Expr → List Moment
  | .literal _ | .var _ _ | .thisRef _ _ | .superMethod _ _ _ => []
  | .group e | .assign _ _ e | .unary _ e | .property e _ => [⟨d, .expr e, m⟩]
  | .binary left operator right =>
    ⟨d, .expr left, m⟩ :: after (evaluate d left m) fun v m =>
      if operator.is .coalesce && !v.isNull then [] else [⟨d, .expr right, m⟩]
  | .logical left operator right =>
    ⟨d, .expr left, m⟩ :: after (evaluate d left m) fun v m =>
      if settles operator v then [] else [⟨d, .expr right, m⟩]
  | .call callee _ arguments =>
    ⟨d, .expr callee, m⟩ :: after (evaluate d callee m) fun v m =>
      match v.callable? with
      | none => []
      | some (_, arity) =>
        ⟨d, .exprs arguments, m⟩ :: after (evaluateAll d arguments m) fun vs m =>
          if vs.length = arity then [⟨d, .apply v vs, m⟩] else []
  | .setProperty object _ value =>
    ⟨d, .expr object, m⟩ :: after (evaluate d object m) fun v m =>
      match v with
      | .object _ _ => [⟨d, .expr value, m⟩]
      | _ => []

def applyCalls (arguments : List Value) : Value → List Moment
  | .function _ code => [⟨d, .invoke code arguments, m⟩]
  | .classRef c =>
    after (newObject c m) fun object m =>
      match c.constructor? with
      | some found => after (bind found object m) fun code m => [⟨d, .invoke code arguments, m⟩]
      | none => []
  | .null | .bool _ | .number _ | .string _ | .object _ _ => []

def stmtCalls : Stmt → List Moment
  | .expr e | .print e | .constDecl _ e => [⟨d, .expr e, m⟩]
  | .letDecl _ e | .ret _ e => [⟨d, .option e, m⟩]
  | .block body =>
    after (openScope m.current [] m) fun scope m => [⟨d, .stmts body, { m with current := scope }⟩]
  | .cond condition thenBranch elseBranch =>
    ⟨d, .expr condition, m⟩ :: after (evaluate d condition m) fun v m =>
      if v.truthy then [⟨d, .stmt thenBranch, m⟩] else elseBranch.toList.map (⟨d, .stmt ·, m⟩)
  | .loop condition body =>
    ⟨d, .expr condition, m⟩ :: after (evaluate d condition m) fun v m =>
      if v.truthy then
        ⟨d, .stmt body, m⟩ :: after (execute d body m) fun signal m =>
          match signal with
          | .normal => [⟨d, .stmt (.loop condition body), m⟩]
          | .returned _ => []
      else []
  | .function _ => []
  | .classDecl name superclass methods statics =>
    [⟨d, .declareClass name superclass methods statics, m⟩]

end Calls

/-- The calls of a task in the order of time. -/
def Moment.calls : Moment → List Moment
  | ⟨0, _, _⟩ => []
  | ⟨d + 1, .expr e, m⟩ => exprCalls d m e
  | ⟨_ + 1, .exprs [], _⟩ => []
  | ⟨d + 1, .exprs (e :: es), m⟩ =>
    ⟨d, .expr e, m⟩ :: after (evaluate d e m) fun _ m => [⟨d, .exprs es, m⟩]
  | ⟨d + 1, .option e, m⟩ | ⟨d + 1, .superclass e, m⟩ => e.toList.map (⟨d, .expr ·, m⟩)
  | ⟨d + 1, .apply callee arguments, m⟩ => applyCalls d m arguments callee
  | ⟨d + 1, .invoke code arguments, m⟩ =>
    after (openScope code.scope [] m) fun scope m =>
      after (bindArguments scope code.declaration.params arguments m) fun _ m =>
        [⟨d, .stmts code.declaration.body, { m with current := scope }⟩]
  | ⟨d + 1, .stmt s, m⟩ => stmtCalls d m s
  | ⟨_ + 1, .stmts [], _⟩ => []
  | ⟨d + 1, .stmts (s :: ss), m⟩ =>
    ⟨d, .stmt s, m⟩ :: after (execute d s m) fun signal m =>
      match signal with
      | .normal => [⟨d, .stmts ss, m⟩]
      | .returned _ => []
  | ⟨d + 1, .declareClass name superclass _ _, m⟩ =>
    after (define name .null false m) fun _ m => [⟨d, .superclass superclass, m⟩]

theorem mem_after_iff {r : EStateM.Result Stop Machine α} {next : α → Machine → List Moment} :
    now ∈ after r next ↔ ∃ a m, r = .ok a m ∧ now ∈ next a m := by
  cases r with
  | ok a m =>
    constructor
    · exact fun h => ⟨a, m, rfl, h⟩
    · rintro ⟨_, _, ⟨⟩, h⟩
      exact h
  | error stop m =>
    constructor
    · intro h
      cases h
    · rintro ⟨_, _, ⟨⟩, -⟩

theorem calls_of_mem_expr {e : Expr} (h : next ∈ exprCalls d m e) :
    Calls ⟨d + 1, .expr e, m⟩ next := by
  cases e with
  | literal | var | thisRef | superMethod => cases h
  | group e =>
    cases List.mem_singleton.mp h
    exact .group
  | assign id name e =>
    cases List.mem_singleton.mp h
    exact .assigned
  | unary operator e =>
    cases List.mem_singleton.mp h
    exact .operand
  | property e name =>
    cases List.mem_singleton.mp h
    exact .propertyObject
  | binary left operator right =>
    obtain rfl | h := List.mem_cons.mp h
    · exact .binaryLeft
    · obtain ⟨v, m', hl, h⟩ := mem_after_iff.mp h
      split at h
      · cases h
      · rename_i goes
        cases List.mem_singleton.mp h
        exact .binaryRight hl (by simpa using goes)
  | logical left operator right =>
    obtain rfl | h := List.mem_cons.mp h
    · exact .logicalLeft
    · obtain ⟨v, m', hl, h⟩ := mem_after_iff.mp h
      split at h
      · cases h
      · rename_i goes
        cases List.mem_singleton.mp h
        exact .logicalRight hl (Bool.eq_false_iff.mpr goes)
  | call callee paren arguments =>
    obtain rfl | h := List.mem_cons.mp h
    · exact .callee
    · obtain ⟨v, m', hc, h⟩ := mem_after_iff.mp h
      cases hv : v.callable? with
      | none =>
        simp only [hv] at h
        cases h
      | some signature =>
        simp only [hv] at h
        obtain rfl | h := List.mem_cons.mp h
        · exact .arguments hc hv
        · obtain ⟨vs, m', ha, h⟩ := mem_after_iff.mp h
          split at h
          · rename_i hn
            cases List.mem_singleton.mp h
            exact .applied hc hv ha hn
          · cases h
  | setProperty object name value =>
    obtain rfl | h := List.mem_cons.mp h
    · exact .setObject
    · obtain ⟨v, m', ho, h⟩ := mem_after_iff.mp h
      cases v with
      | object id c =>
        cases List.mem_singleton.mp h
        exact .setValue ho
      | null | bool | number | string | function | classRef => cases h

theorem calls_of_mem_stmt {s : Stmt} (h : next ∈ stmtCalls d m s) :
    Calls ⟨d + 1, .stmt s, m⟩ next := by
  cases s with
  | function => cases h
  | expr e =>
    cases List.mem_singleton.mp h
    exact .expression
  | print e =>
    cases List.mem_singleton.mp h
    exact .printed
  | letDecl name e =>
    cases List.mem_singleton.mp h
    exact .letInitializer
  | constDecl name e =>
    cases List.mem_singleton.mp h
    exact .constInitializer
  | ret keyword e =>
    cases List.mem_singleton.mp h
    exact .returned
  | classDecl name superclass methods statics =>
    cases List.mem_singleton.mp h
    exact .classDecl
  | block body =>
    rw [stmtCalls] at h
    obtain ⟨scope, m', ho, h⟩ := mem_after_iff.mp h
    cases List.mem_singleton.mp h
    exact .block ho
  | cond condition thenBranch elseBranch =>
    obtain rfl | h := List.mem_cons.mp h
    · exact .condition
    · obtain ⟨v, m', hc, h⟩ := mem_after_iff.mp h
      split at h
      · rename_i ht
        cases List.mem_singleton.mp h
        exact .thenBranch hc ht
      · rename_i ht
        cases elseBranch with
        | none => cases h
        | some elseBranch =>
          cases List.mem_singleton.mp h
          exact .elseBranch hc (Bool.eq_false_iff.mpr ht)
  | loop condition body =>
    obtain rfl | h := List.mem_cons.mp h
    · exact .loopCondition
    · obtain ⟨v, m', hc, h⟩ := mem_after_iff.mp h
      split at h
      · rename_i ht
        obtain rfl | h := List.mem_cons.mp h
        · exact .loopBody hc ht
        · obtain ⟨signal, m'', hb, h⟩ := mem_after_iff.mp h
          cases signal with
          | normal =>
            cases List.mem_singleton.mp h
            exact .again hc ht hb
          | returned value => cases h
      · cases h

theorem calls_of_mem_apply {callee : Value} {arguments : List Value}
    (h : next ∈ applyCalls d m arguments callee) :
    Calls ⟨d + 1, .apply callee arguments, m⟩ next := by
  cases callee with
  | null | bool | number | string | object => cases h
  | function id code =>
    cases List.mem_singleton.mp h
    exact .function
  | classRef c =>
    rw [applyCalls] at h
    obtain ⟨object, m₁, ho, h⟩ := mem_after_iff.mp h
    cases hf : c.constructor? with
    | none =>
      simp only [hf] at h
      cases h
    | some found =>
      simp only [hf] at h
      obtain ⟨code, m₂, hb, h⟩ := mem_after_iff.mp h
      cases List.mem_singleton.mp h
      exact .construct ho hf hb

theorem calls_of_mem (h : next ∈ now.calls) : Calls now next := by
  obtain ⟨_ | d, t, m⟩ := now
  · cases h
  cases t with
  | expr e => exact calls_of_mem_expr h
  | stmt s => exact calls_of_mem_stmt h
  | apply callee arguments => exact calls_of_mem_apply h
  | option e =>
    cases e with
    | none => cases h
    | some e =>
      cases List.mem_singleton.mp h
      exact .present
  | superclass e =>
    cases e with
    | none => cases h
    | some e =>
      cases List.mem_singleton.mp h
      exact .ancestor
  | exprs es =>
    cases es with
    | nil => cases h
    | cons e es =>
      obtain rfl | h := List.mem_cons.mp h
      · exact .first
      · obtain ⟨v, m', he, h⟩ := mem_after_iff.mp h
        cases List.mem_singleton.mp h
        exact .others he
  | stmts ss =>
    cases ss with
    | nil => cases h
    | cons s ss =>
      obtain rfl | h := List.mem_cons.mp h
      · exact .statement
      · obtain ⟨signal, m', hs, h⟩ := mem_after_iff.mp h
        cases signal with
        | normal =>
          cases List.mem_singleton.mp h
          exact .rest hs
        | returned value => cases h
  | invoke code arguments =>
    rw [Moment.calls] at h
    obtain ⟨scope, m₁, ho, h⟩ := mem_after_iff.mp h
    obtain ⟨u, m₂, hb, h⟩ := mem_after_iff.mp h
    cases List.mem_singleton.mp h
    exact .body ho hb
  | declareClass name superclass methods statics =>
    obtain ⟨u, m', hd, h⟩ := mem_after_iff.mp h
    cases List.mem_singleton.mp h
    exact .extended hd

theorem Calls.mem (hc : Calls now next) : next ∈ now.calls := by
  cases hc with
  | binaryRight hl hc =>
    rename_i operator _ v
    have goes : ¬ (operator.is .coalesce && !v.isNull) = true := by simpa using hc
    simp [Moment.calls, exprCalls, after, hl, goes]
  | setValue ho => simp [Moment.calls, exprCalls, after, ho]
  | _ => simp [Moment.calls, exprCalls, applyCalls, stmtCalls, after, *]

theorem mem_calls_iff : next ∈ now.calls ↔ Calls now next := ⟨calls_of_mem, Calls.mem⟩

/-- The moments of a task that may nest so deep: it begins, and then come those of its calls. -/
def moments : Nat → Moment → List Moment
  | 0, now => [now]
  | d + 1, now => now :: now.calls.flatMap (moments d)

/-- A run has these moments and no others. -/
theorem mem_moments_iff : next ∈ moments now.depth now ↔ Relation.ReflTransGen Calls now next := by
  generalize hd : now.depth = d
  induction d generalizing now with
  | zero =>
    rw [moments, List.mem_singleton]
    constructor
    · rintro rfl
      exact .refl
    · intro h
      obtain rfl | ⟨call, hc, -⟩ := Relation.ReflTransGen.cases_head h
      · rfl
      · exact absurd (hd.symm.trans hc.depth_eq) (Nat.succ_ne_zero _).symm
  | succ d ih =>
    rw [moments, List.mem_cons, List.mem_flatMap, Relation.ReflTransGen.cases_head_iff, eq_comm]
    refine or_congr_right (exists_congr fun call => ?_)
    rw [mem_calls_iff]
    refine and_congr_right fun hc => ih ?_
    exact Nat.succ.inj (hc.depth_eq.symm.trans hd)

end Machine

end ClassScript
