import ClassScript.Proofs.Machine.Assignments
import ClassScript.Proofs.Store.Chains

/-! Names without a distance. The walk knew them in no scope, and a run takes the nearest scope that
binds them by then: the top level or the globals, unless a scope in between has come to declare the
name behind the node and has bound it already. -/
namespace ClassScript

open Scoping (Place Visits Names)

namespace Machine

variable {source : List UInt8} {sink : Sink} {program : List Stmt} {now : Moment} {m m' : Machine}
  {name : String} {id holder : ScopeId}

/-- A scope around the place declares the name, but only behind it, and the run has bound it
there. -/
def Overtaken (m : Machine) (P : Place) (name : String) (scope : ScopeId) : Prop :=
  ∃ d names declared, P.progress.scopes[d]? = some names ∧ names.lookup name = none ∧
    P.declared[d]? = some declared ∧ name ∈ declared ∧
    m.scopes.ancestor? m.current d = some scope ∧ (m.scopes.binding? scope name).isSome

/-- The name is found at the top level or among the globals, unless it is overtaken, and then it is
found where it is. -/
structure Holds (m : Machine) (P : Place) (name : String) (holder : ScopeId) : Prop where
  nearest : m.scopes.holder? name m.current = some holder
  outer : (holder = topLevel ∨ holder = globals) ↔ ∀ scope, ¬ Overtaken m P name scope
  inner : topLevel < holder → Overtaken m P name holder

/-- From the top level outward there are only the top level and the globals. -/
theorem Tidy.holder_topLevel {r : Resolution} {layout : List (List String)}
    (ht : Tidy program r layout m) (hh : m.scopes.holder? name topLevel = some holder) :
    holder = topLevel ∨ holder = globals := by
  by_cases hb : (m.scopes.binding? topLevel name).isSome
  · rw [Scopes.holder?_of_bound hb] at hh
    cases hh
    exact .inl rfl
  · rw [Scopes.holder?_of_unbound hb ht.base Nat.zero_lt_one, Scopes.holder?] at hh
    split at hh
    · cases hh
      exact .inr rfl
    · split at hh
      · rename_i hp
        exact absurd (ht.outward globals _ hp) (Nat.not_lt_zero _)
      · cases hh

/-- The holder of a name is the nearest scope of the chain that binds it, if there is one. -/
theorem holder_of_mirrors {r : Resolution} {layout declared : List (List String)}
    {scopes : List Names} (hm : Mirrors (world layout m) declared scopes id)
    (ht : Tidy program r layout m)
    (hh : m.scopes.holder? name id = some holder) :
    (∃ d, d < scopes.length ∧ m.scopes.ancestor? id d = some holder ∧ topLevel < holder ∧
        (m.scopes.binding? holder name).isSome) ∨
      (holder = topLevel ∨ holder = globals) ∧ ∀ d scope, d < scopes.length →
        m.scopes.ancestor? id d = some scope → ¬ (m.scopes.binding? scope name).isSome := by
  induction hm with
  | topLevel => exact .inr ⟨ht.holder_topLevel hh, fun d _ hd => absurd hd (Nat.not_lt_zero d)⟩
  | @inside id parent _ _ _ outer above laid defined around outward ih =>
    by_cases hb : (m.scopes.binding? id name).isSome
    · rw [Scopes.holder?_of_bound hb] at hh
      cases hh
      exact .inl ⟨0, Nat.zero_lt_succ _, rfl, above, hb⟩
    · rw [Scopes.holder?_of_unbound hb around (ht.outward id parent around)] at hh
      have further (d : Nat) : m.scopes.ancestor? id (d + 1) = m.scopes.ancestor? parent d := by
        rw [Scopes.ancestor?, around]
        rfl
      rcases ih hh with ⟨d, hd, hs, bound⟩ | ⟨outside, unbound⟩
      · exact .inl ⟨d + 1, Nat.succ_lt_succ hd, (further d).trans hs, bound⟩
      · refine .inr ⟨outside, ?_⟩
        intro d scope hd hs
        cases d with
        | zero =>
          cases hs
          exact hb
        | succ d => exact unbound d scope (Nat.lt_of_succ_lt_succ hd) ((further d).symm.trans hs)

namespace Evaluates

variable {r : Resolution} {layout : List (List String)} {P : Place} {e : Expr}
  {reference : Reference}

/-- A scope of the chain that binds a name without a distance has overtaken it. -/
theorem overtaken (h : Evaluates program r layout m P e) (hr : e.reference? = some reference)
    (hd : m.resolution.distance? reference.id = none) {d : Nat} {scope : ScopeId}
    (hlt : d < P.progress.scopes.length) (hs : m.scopes.ancestor? m.current d = some scope)
    (hb : (m.scopes.binding? scope reference.name).isSome) :
    Overtaken m P reference.name scope := by
  have unknown := Scoping.distance?_eq_none (h.distance_eq hr ▸ hd)
  have hn := List.getElem?_eq_getElem hlt
  obtain ⟨_, declared, hs', -, hdecl, -, binds⟩ := h.mirrored.position d _ hn
  cases hs.symm.trans hs'
  exact ⟨d, _, declared, hn, unknown _ (List.getElem_mem hlt), hdecl, binds _ hb, hs, hb⟩

theorem holds (h : Evaluates program r layout m P e) (hr : e.reference? = some reference)
    (hd : m.resolution.distance? reference.id = none)
    (hh : m.scopes.holder? reference.name m.current = some holder) :
    Holds m P reference.name holder := by
  have bounded {scope : ScopeId} (ho : Overtaken m P reference.name scope) :
      ∃ d, d < P.progress.scopes.length ∧ m.scopes.ancestor? m.current d = some scope ∧
        (m.scopes.binding? scope reference.name).isSome := by
    obtain ⟨d, names, _, hn, -, -, -, hs, hb⟩ := ho
    exact ⟨d, (List.getElem?_eq_some_iff.mp hn).1, hs, hb⟩
  rcases holder_of_mirrors h.standing.mirrors h.tidy
    hh with ⟨d, hlt, hs, above, hb⟩ | ⟨outside, unbound⟩
  · have here := h.overtaken hr hd hlt hs hb
    refine ⟨hh, ⟨?_, fun free => absurd here (free holder)⟩, fun _ => here⟩
    rintro (rfl | rfl)
    · exact absurd above (Nat.lt_irrefl _)
    · exact absurd above (Nat.not_lt_zero _)
  · refine ⟨hh, ⟨fun _ scope ho => ?_, fun _ => outside⟩, ?_⟩
    · obtain ⟨d, hlt, hs, hb⟩ := bounded ho
      exact unbound d scope hlt hs hb
    · intro above
      rcases outside with rfl | rfl
      · exact absurd above (Nat.lt_irrefl _)
      · exact absurd above (Nat.not_lt_zero _)

end Evaluates

/-- A read without a distance is one in the scope that holds the name. -/
theorem lookup_untracked {id line : Nat} {v : Value} (hd : m.resolution.distance? id = none)
    (h : lookup id name line m = .ok v m') : m' = m ∧ ∃ holder b,
      m.scopes.holder? name m.current = some holder ∧
        m.scopes.binding? holder name = some b ∧ v = b.value := by
  simp only [lookup_eq, hd] at h
  obtain ⟨t, hs, rfl⟩ := onScopes_ok.mp h
  rw [Scopes.read_eq] at hs
  split at hs
  · rename_i holder hh
    rw [Scopes.readIn_eq] at hs
    split at hs
    · rename_i b hb
      cases hs
      exact ⟨rfl, holder, b, hh, hb, rfl⟩
    · cases hs
  · cases hs

/-- An assignment without a distance updates the scope that holds the name. -/
theorem assign_untracked {id : Nat} {name : Token} {v : Value} {u : Unit}
    (hd : m.resolution.distance? id = none) (h : assign id name v m = .ok u m') :
    ∃ holder, m.scopes.holder? name.lexeme m.current = some holder ∧
      Updates m m' holder name.lexeme v := by
  simp only [assign_eq, hd] at h
  obtain ⟨t, hs, rfl⟩ := onScopes_ok.mp h
  rw [Scopes.assign_eq] at hs
  split at hs
  · rename_i holder hh
    rw [Scopes.assignIn_eq] at hs
    split at hs
    · split at hs
      · cases hs
      · cases hs
        exact ⟨holder, hh, fun other x => Scopes.binding?_write⟩
    · cases hs
  · cases hs

/-- What a variable or an assignment without a distance reads or updates is at the top level or
among the globals, exactly if no scope around the node has overtaken the name: none that declares it
only behind the node has it bound by then. Otherwise it is where the name is overtaken. -/
theorem untracked_holds (h : Happens source sink program now) (depth : Nat) :
    (∀ id name v m', now.task = .expr (.var id name) →
      now.machine.resolution.distance? id = none →
      evaluate (depth + 1) (.var id name) now.machine = .ok v m' →
      ∃ P holder b, VisitedAt program (.var id name) P ∧ Holds now.machine P name.lexeme holder ∧
        now.machine.scopes.binding? holder name.lexeme = some b ∧ v = b.value ∧ m' = now.machine) ∧
    (∀ id name value v m', now.task = .expr (.assign id name value) →
      now.machine.resolution.distance? id = none →
      evaluate (depth + 1) (.assign id name value) now.machine = .ok v m' →
      ∃ P holder m₁, VisitedAt program (.assign id name value) P ∧
        evaluate depth value now.machine = .ok v m₁ ∧ Holds m₁ P name.lexeme holder ∧
        Updates m₁ m' holder name.lexeme v) := by
  refine ⟨?_, ?_⟩
  · intro id name v m' he hd hv
    obtain ⟨r, layout, P, ev⟩ := h.evaluates he
    have hl : lookup id name.lexeme name.line now.machine = .ok v m' := hv
    obtain ⟨rfl, holder, b, hh, hb, rfl⟩ := lookup_untracked hd hl
    exact ⟨P, holder, b, ev.visitedAt rfl, ev.holds rfl hd hh, hb, rfl, rfl⟩
  · intro id name value v m' he hd hv
    obtain ⟨r, layout, P, ev⟩ := h.evaluates he
    rw [evaluate] at hv
    obtain ⟨v₁, m₁, hvalue, hv⟩ := bind_ok.mp hv
    obtain ⟨_, m₂, ha, hv⟩ := bind_ok.mp hv
    cases hv
    obtain ⟨layout', ev₁⟩ := ev.assigned hvalue
    have hd₁ : m₁.resolution.distance? id = none := by
      rw [ev₁.tidy.resolved, ← ev.tidy.resolved, hd]
    obtain ⟨holder, hh, hu⟩ := assign_untracked hd₁ ha
    exact ⟨P, holder, m₁, ev.visitedAt rfl, hvalue, ev₁.holds rfl hd₁ hh, hu⟩

namespace Overtaking

/-- Between two calls of a function the block around it declares the name that the function
reads. -/
def text : List UInt8 := Text.encode
  ("let a = \"outer\"; \x7b function show() \x7b return a; \x7d show(); " ++
    "let a = \"block\"; print show(); \x7d")

def node : Expr := .var 0 (word "a")

def declares (value : String) : Stmt := .letDecl (word "a") (some (.literal (.string value)))

def routine : FunctionDecl := returning "show" node

def call (id : Nat) : Expr := .call (.var id (word "show")) closing []

def behind : List Stmt := [.expr (call 1), declares "block", .print (call 2)]

def statements : List Stmt := [declares "outer", .block (.function routine :: behind)]

def outside : Machine := ending (execute 13 (declares "outer") (start statements))

/-- Before the first call. -/
def made : Machine := ending (execute 10 (.function routine) (entering topLevel outside))

def called : Machine := ending (execute 9 (.expr (call 1)) made)

/-- Before the second call. -/
def redeclared : Machine := ending (execute 8 (declares "block") called)

theorem parsed : parse text = .ok statements := by
  with_unfolding_all rfl

theorem accepted : ((fresh .unlimited).analyze statements).1 = [] := by
  with_unfolding_all rfl

theorem start_leads : Relation.ReflTransGen Calls ⟨14, .stmts statements, start statements⟩
    ⟨10, .stmts behind, made⟩ := by
  have declared : execute 13 (declares "outer") (start statements) = .ok .normal outside := by
    with_unfolding_all rfl
  have function : execute 10 (.function routine) (entering topLevel outside) =
      .ok .normal made := by
    with_unfolding_all rfl
  exact .head (.rest declared) (.head .statement (.head (.block rfl)
    (.head (.rest function) .refl)))

theorem happens_first : Happens text .unlimited statements ⟨2, .expr node, entering 2 made⟩ := by
  have found : evaluate 7 (.var 1 (word "show")) made = .ok (.function 0 ⟨routine, 2⟩) made := by
    with_unfolding_all rfl
  have first : Relation.ReflTransGen Calls ⟨10, .stmts behind, made⟩ ⟨8, .expr (call 1), made⟩ :=
    .head .statement (.head .expression .refl)
  exact ⟨parsed, accepted, 14, start_leads.trans (first.trans (call_leads found))⟩

theorem happens_second :
    Happens text .unlimited statements ⟨0, .expr node, entering 2 redeclared⟩ := by
  have returned : execute 9 (.expr (call 1)) made = .ok .normal called := by
    with_unfolding_all rfl
  have declared : execute 8 (declares "block") called = .ok .normal redeclared := by
    with_unfolding_all rfl
  have found : evaluate 5 (.var 2 (word "show")) redeclared =
      .ok (.function 0 ⟨routine, 2⟩) redeclared := by
    with_unfolding_all rfl
  have second : Relation.ReflTransGen Calls ⟨10, .stmts behind, made⟩
      ⟨6, .expr (call 2), redeclared⟩ :=
    .head (.rest returned) (.head (.rest declared) (.head .statement (.head .printed .refl)))
  exact ⟨parsed, accepted, 14, start_leads.trans (second.trans (call_leads found))⟩

end Overtaking

namespace Assigning

/-- A function in a block assigns to a name of the top level. -/
def text : List UInt8 := Text.encode
  "let a = null; \x7b function set() \x7b return a = true; \x7d set(); \x7d"

def node : Expr := .assign 1 (word "a") (.literal (.bool true))

def routine : FunctionDecl := returning "set" node

def call : Expr := .call (.var 2 (word "set")) closing []

def declaration : Stmt := .letDecl (word "a") (some (.literal .null))

def statements : List Stmt := [declaration, .block [.function routine, .expr call]]

def outside : Machine := ending (execute 13 declaration (start statements))

/-- Before the call. -/
def made : Machine := ending (execute 10 (.function routine) (entering topLevel outside))

/-- Behind the assignment. -/
def assigned : Machine := ending (evaluate 2 node (entering 2 made))

theorem happens : Happens text .unlimited statements ⟨2, .expr node, entering 2 made⟩ := by
  have parsed : parse text = .ok statements := by
    with_unfolding_all rfl
  have accepted : ((fresh .unlimited).analyze statements).1 = [] := by
    with_unfolding_all rfl
  have declared : execute 13 declaration (start statements) = .ok .normal outside := by
    with_unfolding_all rfl
  have function : execute 10 (.function routine) (entering topLevel outside) =
      .ok .normal made := by
    with_unfolding_all rfl
  have found : evaluate 7 (.var 2 (word "set")) made = .ok (.function 0 ⟨routine, 2⟩) made := by
    with_unfolding_all rfl
  refine ⟨parsed, accepted, 14, ?_⟩
  exact .head (.rest declared) (.head .statement (.head (.block rfl) (.head (.rest function)
    (.head .statement (.head .expression (call_leads found))))))

end Assigning

theorem untracked_holds_in_body :
    (Happens Overtaking.text .unlimited Overtaking.statements
        ⟨2, .expr Overtaking.node, entering 2 Overtaking.made⟩ ∧
      ∃ P holder b, VisitedAt Overtaking.statements Overtaking.node P ∧
        Holds (entering 2 Overtaking.made) P "a" holder ∧
        (entering 2 Overtaking.made).scopes.binding? holder "a" = some b ∧
        .string "outer" = b.value) ∧
    Happens Assigning.text .unlimited Assigning.statements
        ⟨2, .expr Assigning.node, entering 2 Assigning.made⟩ ∧
      ∃ P holder m₁, VisitedAt Assigning.statements Assigning.node P ∧
        evaluate 1 (.literal (.bool true)) (entering 2 Assigning.made) = .ok (.bool true) m₁ ∧
        Holds m₁ P "a" holder ∧ Updates m₁ Assigning.assigned holder "a" (.bool true) := by
  have untracked : (entering 2 Overtaking.made).resolution.distance? 0 = none := by
    with_unfolding_all rfl
  have read : evaluate 1 Overtaking.node (entering 2 Overtaking.made) =
      .ok (.string "outer") (entering 2 Overtaking.made) := by
    with_unfolding_all rfl
  obtain ⟨P, holder, b, visited, holds, hb, hv, -⟩ :=
    (untracked_holds Overtaking.happens_first 0).1 0 _ _ _ rfl untracked read
  have untracked' : (entering 2 Assigning.made).resolution.distance? 1 = none := by
    with_unfolding_all rfl
  have assigned : evaluate 2 Assigning.node (entering 2 Assigning.made) =
      .ok (.bool true) Assigning.assigned := by
    with_unfolding_all rfl
  exact ⟨⟨Overtaking.happens_first, P, holder, b, visited, holds, hb, hv⟩, Assigning.happens,
    (untracked_holds Assigning.happens 1).2 1 _ _ _ _ rfl untracked' assigned⟩

/-- A variable without a distance that is found at the top level, and later in a block. -/
theorem untracked_read_in_block :
    Happens Overtaking.text .unlimited Overtaking.statements
        ⟨2, .expr Overtaking.node, entering 2 Overtaking.made⟩ ∧
      Happens Overtaking.text .unlimited Overtaking.statements
        ⟨0, .expr Overtaking.node, entering 2 Overtaking.redeclared⟩ ∧
      (start Overtaking.statements).resolution.distance? 0 = none ∧
      (entering 2 Overtaking.made).scopes.holder? "a" 3 = some topLevel ∧
      (entering 2 Overtaking.redeclared).scopes.holder? "a" 4 = some 2 ∧
      evaluate 1 Overtaking.node (entering 2 Overtaking.redeclared) =
        .ok (.string "block") (entering 2 Overtaking.redeclared) := by
  refine ⟨Overtaking.happens_first, Overtaking.happens_second, ?_, ?_, ?_, ?_⟩ <;>
    with_unfolding_all rfl

end Machine

end ClassScript
