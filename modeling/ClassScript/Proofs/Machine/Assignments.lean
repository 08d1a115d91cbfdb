import ClassScript.Proofs.Machine.Reads

/-! Assigning to what has a distance. The scope there binds the name, unless the assignment stands
in the initializer of that very name: it is declared then, so that it has a distance, but nothing
binds it yet. -/
namespace ClassScript

open Scoping (Place Visits isUndefined)

namespace Machine

variable {source : List UInt8} {sink : Sink} {program : List Stmt} {now : Moment} {m m' : Machine}
  {scope : ScopeId} {line : Nat} {name : String} {v : Value}

/-- One scope has another value for the name, and all else is bound as before. -/
def Updates (m m' : Machine) (scope : ScopeId) (name : String) (v : Value) : Prop :=
  ∀ other x, m'.scopes.binding? other x = if scope = other ∧ x = name
    then (m.scopes.binding? other x).map ({ · with value := v }) else m.scopes.binding? other x

theorem assignIn_unbound (hb : m.scopes.binding? scope name = none) :
    onScopes line (Scopes.assignIn scope name v) m =
      .error (.error (.fault (.undefined name) line)) m := by
  simp only [onScopes_eq, Scopes.assignIn_eq, hb]

theorem assignIn_constant {b : Binding} (hb : m.scopes.binding? scope name = some b)
    (hc : b.constant = true) : onScopes line (Scopes.assignIn scope name v) m =
      .error (.error (.fault (.constant name) line)) m := by
  simp only [onScopes_eq, Scopes.assignIn_eq, hb, hc, if_true]

theorem assignIn_variable {b : Binding} (hb : m.scopes.binding? scope name = some b)
    (hc : b.constant = false) : ∃ m', Updates m m' scope name v ∧
      onScopes line (Scopes.assignIn scope name v) m = .ok () m' := by
  refine ⟨{ m with scopes := ⟨m.scopes.all.modify scope (·.write name v)⟩ }, ?_, ?_⟩
  · exact fun other x => Scopes.binding?_write
  · simp only [onScopes_eq, Scopes.assignIn_eq, hb, hc, Bool.false_eq_true, if_false]

/-- With a distance the assignment is one in the scope there. -/
theorem assign_at {id d : Nat} {name : Token} (hd : m.resolution.distance? id = some d)
    (hs : m.scopes.ancestor? m.current d = some scope) :
    assign id name v m = onScopes name.line (Scopes.assignIn scope name.lexeme v) m := by
  simp only [assign_eq, hd, onScopes_eq, Scopes.assignAt_eq, hs]

/-- An assignment ends as its last step does. -/
theorem evaluate_assign {depth id : Nat} {name : Token} {value : Expr} {m₁ : Machine}
    (hv : evaluate depth value m = .ok v m₁) :
    evaluate (depth + 1) (.assign id name value) m =
      (assign id name v >>= fun _ => pure v) m₁ := by
  rw [evaluate, bind_of_ok hv]

namespace Evaluates

variable {r : Resolution} {layout : List (List String)} {P : Place} {id depth : Nat} {name : Token}
  {value : Expr} {m₁ : Machine}

/-- With the value at hand the machine stands where the assignment began. -/
theorem assigned (h : Evaluates program r layout m P (.assign id name value))
    (hv : evaluate depth value m = .ok v m₁) :
    ∃ layout', Evaluates program r layout' m₁ P (.assign id name value) := by
  have found : Scoping.Found program (.expr (.assign id name value)) P.declared P.progress.scopes :=
    ⟨P, h.visits, h.fragment, rfl, rfl⟩
  obtain ⟨layout', -, tidy, -, standing⟩ :=
    after_expr (perform_sound h.analyzed depth) h.tidy h.standing (found.part .assign) hv
  exact ⟨layout', h.analyzed, tidy, h.visits, h.fragment, standing⟩

/-- What is read in its own initializer is not bound. -/
theorem unbound (h : Evaluates program r layout m P (.assign id name value)) {d : Nat}
    (hd : m.resolution.distance? id = some d)
    (hu : isUndefined name.lexeme P.progress.scopes = true) :
    d = 0 ∧ m.scopes.binding? m.current name.lexeme = none := by
  have distance := h.distance_eq rfl ▸ hd
  have exact := h.standing.exact
  cases hs : P.progress.scopes with
  | nil => simp [hs, isUndefined] at hu
  | cons names outer =>
    have undefined : names.lookup name.lexeme = some false := by simpa [hs, isUndefined] using hu
    rw [hs] at exact distance
    refine ⟨?_, ?_⟩
    · obtain ⟨_, -, -, nearest⟩ := Scoping.distance?_eq_some distance
      cases d with
      | zero => rfl
      | succ d => cases undefined.symm.trans (nearest names List.mem_cons_self)
    · by_contra hb
      have bound := exact names rfl _ (Option.isSome_iff_ne_none.mpr hb)
      rw [undefined] at bound
      cases bound

end Evaluates

/-- How an assignment to a scope ends, its value at hand. In the initializer of its own name, where
a read of the name would not be accepted, it fails, as nothing binds the name. Elsewhere the scope
binds it, and gives it the value unless it is a constant. -/
structure AssignmentEnds (P : Place) (scope : ScopeId) (name : Token) (v : Value) (m : Machine)
    (outcome : EStateM.Result Stop Machine Value) : Prop where
  ownInitializer : isUndefined name.lexeme P.progress.scopes = true →
    outcome = .error (.error (.fault (.undefined name.lexeme) name.line)) m
  elsewhere : isUndefined name.lexeme P.progress.scopes = false →
    ∃ b, m.scopes.binding? scope name.lexeme = some b ∧
      (b.constant = true →
        outcome = .error (.error (.fault (.constant name.lexeme) name.line)) m) ∧
      (b.constant = false → ∃ m', Updates m m' scope name.lexeme v ∧ outcome = .ok v m')

/-- In the scope that the walk found the assignment ends in one of these ways. -/
theorem Evaluates.assignmentEnds {r : Resolution} {layout : List (List String)} {P : Place}
    {id d depth : Nat} {name : Token} {value : Expr} {m₁ : Machine}
    (h : Evaluates program r layout m P (.assign id name value))
    (hd : m.resolution.distance? id = some d) (hv : evaluate depth value m = .ok v m₁) :
    ∃ scope, m₁.scopes.ancestor? m₁.current d = some scope ∧ topLevel < scope ∧
      AssignmentEnds P scope name v m₁ (evaluate (depth + 1) (.assign id name value) m) := by
  obtain ⟨layout', ev₁⟩ := h.assigned hv
  have hd₁ : m₁.resolution.distance? id = some d := by
    rw [ev₁.tidy.resolved, ← h.tidy.resolved, hd]
  obtain ⟨names, hn, -, -⟩ := Scoping.distance?_eq_some (ev₁.distance_eq rfl ▸ hd₁)
  obtain ⟨scope, _, hs, above, -⟩ := ev₁.mirrored.position d names hn
  refine ⟨scope, hs, above, ?_, ?_⟩
  · intro hu
    obtain ⟨rfl, unbound⟩ := ev₁.unbound hd₁ hu
    cases hs
    rw [evaluate_assign hv, bind_of_error ((assign_at hd₁ rfl).trans (assignIn_unbound unbound))]
  · intro hu
    obtain ⟨b, d', scope', hd', hs', hb⟩ := ev₁.tracked rfl hd₁ hu
    cases hd₁.symm.trans hd'
    cases hs.symm.trans hs'
    refine ⟨b, hb, ?_, ?_⟩
    · intro hc
      rw [evaluate_assign hv, bind_of_error ((assign_at hd₁ hs).trans (assignIn_constant hb hc))]
    · intro hc
      obtain ⟨m₂, hu, ha⟩ := assignIn_variable hb hc
      refine ⟨m₂, hu, ?_⟩
      rw [evaluate_assign hv, bind_of_ok ((assign_at hd₁ hs).trans ha)]
      rfl

/-- An assignment with a distance takes place in the scope that the walk found, and fails for want
of a binding exactly in the initializer of its own name. -/
theorem assignment_ends (h : Happens source sink program now) {id d depth : Nat} {name : Token}
    {value : Expr} {m₁ : Machine} (he : now.task = .expr (.assign id name value))
    (hd : now.machine.resolution.distance? id = some d)
    (hv : evaluate depth value now.machine = .ok v m₁) :
    ∃ P scope, VisitedAt program (.assign id name value) P ∧
      m₁.scopes.ancestor? m₁.current d = some scope ∧ topLevel < scope ∧
      AssignmentEnds P scope name v m₁
        (evaluate (depth + 1) (.assign id name value) now.machine) := by
  obtain ⟨r, layout, P, ev⟩ := h.evaluates he
  obtain ⟨scope, hs, above, ends⟩ := ev.assignmentEnds hd hv
  exact ⟨P, scope, ev.visitedAt rfl, hs, above, ends⟩

namespace Reassigned

/-- A variable of a block gets another value. -/
def text : List UInt8 := Text.encode "\x7b let a = null; a = true; \x7d"

def declaration : Stmt := .letDecl (word "a") (some (.literal .null))

def node : Expr := .assign 1 (word "a") (.literal (.bool true))

def statements : List Stmt := [.block [declaration, .expr node]]

def declared : Machine := ending (execute 4 declaration (entering topLevel (start statements)))

theorem parsed : parse text = .ok statements := by
  with_unfolding_all rfl

theorem accepted : ((fresh .unlimited).analyze statements).1 = [] := by
  with_unfolding_all rfl

theorem happens : Happens text .unlimited statements ⟨2, .expr node, declared⟩ := by
  have made : execute 4 declaration (entering topLevel (start statements)) =
      .ok .normal declared := by
    with_unfolding_all rfl
  exact ⟨parsed, accepted, 7, .head .statement (.head (.block rfl)
    (.head (.rest made) (.head .statement (.head .expression .refl))))⟩

end Reassigned

theorem assignment_ends_in_block :
    Happens Reassigned.text .unlimited Reassigned.statements
        ⟨2, .expr Reassigned.node, Reassigned.declared⟩ ∧
      ∃ P scope, VisitedAt Reassigned.statements Reassigned.node P ∧
        Reassigned.declared.scopes.ancestor? 2 0 = some scope ∧ topLevel < scope ∧
        AssignmentEnds P scope (word "a") (.bool true) Reassigned.declared
          (evaluate 2 Reassigned.node Reassigned.declared) := by
  have tracked : Reassigned.declared.resolution.distance? 1 = some 0 := by
    with_unfolding_all rfl
  exact ⟨Reassigned.happens, assignment_ends Reassigned.happens rfl tracked rfl⟩

namespace OwnInitializer

/-- A variable is assigned to in its own initializer. -/
def text : List UInt8 := Text.encode "\x7b let a = (a = null); print a; \x7d"

def node : Expr := .assign 1 (word "a") (.literal .null)

def statements : List Stmt :=
  [.block [.letDecl (word "a") (some (.group node)), .print (.var 2 (word "a"))]]

theorem parsed : parse text = .ok statements := by
  with_unfolding_all rfl

theorem accepted : ((fresh .unlimited).analyze statements).1 = [] := by
  with_unfolding_all rfl

def inBlock : Machine := entering topLevel (start statements)

theorem happens : Happens text .unlimited statements ⟨2, .expr node, inBlock⟩ :=
  ⟨parsed, accepted, 8, .head .statement (.head (.block rfl) (.head .statement
    (.head .letInitializer (.head .present (.head .group .refl)))))⟩

end OwnInitializer

/-- An assignment with a distance that fails because nothing binds the name. -/
theorem own_initializer_unbound :
    Happens OwnInitializer.text .unlimited OwnInitializer.statements
        ⟨2, .expr OwnInitializer.node, OwnInitializer.inBlock⟩ ∧
      OwnInitializer.inBlock.resolution.distance? 1 = some 0 ∧
      evaluate 2 OwnInitializer.node OwnInitializer.inBlock =
        .error (.error (.fault (.undefined "a") 1)) OwnInitializer.inBlock := by
  refine ⟨OwnInitializer.happens, ?_, ?_⟩ <;> with_unfolding_all rfl

end Machine

end ClassScript
