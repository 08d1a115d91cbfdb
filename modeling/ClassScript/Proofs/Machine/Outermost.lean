import ClassScript.Proofs.Machine.Frame

/-! The outermost scopes of a run. The top level comes to bind only names that the program declares
there, and the globals bind nothing. -/
namespace ClassScript

namespace Machine

variable {program : List Stmt} {now next : Moment} {m m' : Machine}

/-- Whether the calls of a task take place in a scope of their own. -/
def Task.opens : Task → Bool
  | stmt (.block _) | invoke _ _ => true
  | _ => false

/-- The way from a task to one of its calls. Meanwhile only names of the task are declared in its
scope; the call takes place in this scope, where it declares no others, or in a new one. -/
structure Moment.Enters (now next : Moment) : Prop where
  steady : now.machine.scopes.Steady
    (fun id x => id = now.machine.current ∧ x ∈ now.task.declares) next.machine.scopes
  scope : next.machine.current = now.machine.current ∧ next.task.declares ⊆ now.task.declares ∨
    now.machine.scopes.all.size ≤ next.machine.current ∧ now.task.opens = true

namespace Moment.Enters

variable {d d' : Nat} {t t' : Task}

/-- The call takes place in the same scope. -/
theorem of_frame {names : List String} (h : Frame names m m') (hn : names ⊆ t.declares)
    (hs : t'.declares ⊆ t.declares) : Moment.Enters ⟨d, t, m⟩ ⟨d', t', m'⟩ :=
  ⟨(h.mono hn).steady, .inl ⟨h.current, hs⟩⟩

theorem at_once (hs : t'.declares ⊆ t.declares) : Moment.Enters ⟨d, t, m⟩ ⟨d', t', m⟩ :=
  of_frame (refl_of (Frame []) m) (List.nil_subset _) hs

/-- The call takes place in a new scope. -/
theorem of_open {parent scope : ScopeId} {bindings : List (String × Binding)} {m₁ : Machine}
    (hn : t.opens = true) (ho : openScope parent bindings m = .ok scope m₁)
    (hb : Keeps (fun id _ => id = scope) m₁ m') :
    Moment.Enters ⟨d, t, m⟩ ⟨d', t', { m' with current := scope }⟩ := by
  have opened := (openScope_unchanged parent bindings).ok ho
  have fresh : scope = m.scopes.all.size := by
    cases ho
    rfl
  refine ⟨?_, .inr ⟨Nat.le_of_eq fresh.symm, hn⟩⟩
  refine (trans_of (Keeps fun id _ => id = scope) opened.keeps hb).steady.mono ?_
  exact fun id x hid hx => absurd (hx.trans fresh) (Nat.ne_of_lt hid)

end Moment.Enters

theorem Calls.enters (hc : Calls now next) : now.Enters next := by
  have evaluated {d d' : Nat} {t t' : Task} {e : Expr} {v : Value} {m m' : Machine}
      (h : evaluate d e m = .ok v m') (hs : t'.declares ⊆ t.declares) :
      Moment.Enters ⟨d', t, m⟩ ⟨d, t', m'⟩ :=
    .of_frame ((perform_frame d (.expr e)).ok h) (List.nil_subset _) hs
  cases hc with
  | group | assigned | operand | binaryLeft | logicalLeft | callee | propertyObject | setObject
  | first | function | expression | printed | letInitializer | constInitializer | condition
  | loopCondition | returned | present | ancestor =>
    exact .at_once (List.nil_subset _)
  | binaryRight hl | logicalRight hl => exact evaluated hl (List.nil_subset _)
  | arguments hf => exact evaluated hf (List.nil_subset _)
  | setValue ho => exact evaluated ho (List.nil_subset _)
  | others he => exact evaluated he (List.nil_subset _)
  | applied hf _ ha =>
    have callee := (perform_frame _ (.expr _)).ok hf
    have arguments := (perform_frame _ (.exprs _)).ok ha
    exact .of_frame (trans_of (Frame []) callee arguments) (List.nil_subset _) (List.nil_subset _)
  | construct ho _ hb =>
    have made := (newObject_unchanged _).ok ho
    have bound := (bind_unchanged _ _).ok hb
    exact .of_frame (trans_of (Frame []) made.frame bound.frame) (List.nil_subset _)
      (List.nil_subset _)
  | body ho hb =>
    have bound := (bindArguments_keeps _ _ _).ok hb
    exact .of_open rfl ho (bound.mono fun _ _ _ hx => hx.1)
  | block ho => exact .of_open rfl ho (refl_of (Keeps _) _)
  | thenBranch hv =>
    refine evaluated hv ?_
    rw [Task.declares, Task.declares, Stmt.declared]
    exact List.subset_append_left _ _
  | elseBranch hv =>
    refine evaluated hv ?_
    rw [Task.declares, Task.declares, Stmt.declared, Stmt.declaredElse]
    exact List.subset_append_right _ _
  | loopBody hv =>
    refine evaluated hv ?_
    rw [Task.declares, Task.declares, Stmt.declared]
    exact List.Subset.refl _
  | @again d m m₁ m₂ condition body v hv _ hb =>
    have condition := (perform_frame _ (.expr _)).ok hv
    have body : Frame body.declared m₁ m₂ := (perform_frame d (.stmt body)).ok hb
    refine .of_frame (trans_of (Frame _) (condition.mono (List.nil_subset _)) body) ?_
      (List.Subset.refl _)
    rw [Task.declares, Stmt.declared]
    exact List.Subset.refl _
  | classDecl =>
    refine .at_once ?_
    rw [Task.declares, Task.declares, Stmt.declared]
    exact List.Subset.refl _
  | statement => exact .at_once (List.subset_append_left _ _)
  | @rest d m m' s ss hs =>
    have first : Frame s.declared m m' := (perform_frame d (.stmt s)).ok hs
    exact .of_frame first (List.subset_append_left _ _) (List.subset_append_right _ _)
  | extended hd =>
    exact .of_frame ((define_frame _ _ _).ok hd) (List.Subset.refl _) (List.nil_subset _)

/-- Most calls take place in the scope of the task. -/
theorem Calls.current (hc : Calls now next) (hn : now.task.opens = false) :
    next.machine.current = now.machine.current := by
  rcases hc.enters.scope with ⟨same, -⟩ | ⟨-, opens⟩
  · exact same
  · cases hn.symm.trans opens

/-- What is bound outermost at a moment of a run of the program. -/
structure Outermost (program : List Stmt) (m : Machine) : Prop where
  size : topLevel < m.scopes.all.size
  topLevel : ∀ x, (m.scopes.binding? topLevel x).isSome → x ∈ Stmt.declaredAll program
  globals : ∀ x, m.scopes.binding? globals x = none

theorem Outermost.keep {fresh : ScopeId → String → Prop} (h : Outermost program m)
    (hs : m.scopes.Steady fresh m'.scopes)
    (hf : ∀ id x, fresh id x → Machine.topLevel ≤ id ∧
      (id = Machine.topLevel → x ∈ Stmt.declaredAll program)) : Outermost program m' := by
  refine ⟨Nat.lt_of_lt_of_le h.size hs.size, fun x hx => ?_, fun x => ?_⟩
  · rcases hs.gained _ x h.size hx with hb | hb
    · exact h.topLevel x hb
    · exact (hf _ x hb).2 rfl
  · refine Option.not_isSome_iff_eq_none.mp fun hx => ?_
    have inside : Machine.globals < m.scopes.all.size := Nat.lt_of_succ_lt h.size
    rcases hs.gained _ x inside hx with hb | hb
    · rw [h.globals x] at hb
      cases hb
    · exact absurd (hf _ x hb).1 (Nat.not_succ_le_zero 0)

/-- A task at the top level declares only what the program declares there. -/
structure Inward (program : List Stmt) (now : Moment) : Prop where
  outermost : Outermost program now.machine
  current : topLevel ≤ now.machine.current
  declares : now.machine.current = topLevel → now.task.declares ⊆ Stmt.declaredAll program

theorem Inward.calls (h : Inward program now) (hc : Calls now next) : Inward program next := by
  obtain ⟨steady, scope⟩ := hc.enters
  refine ⟨h.outermost.keep steady ?_, ?_, ?_⟩
  · rintro id x ⟨rfl, hx⟩
    exact ⟨h.current, fun top => h.declares top hx⟩
  · rcases scope with ⟨same, -⟩ | new
    · exact same ▸ h.current
    · exact Nat.le_trans (Nat.le_of_lt h.outermost.size) new.1
  · intro top
    rcases scope with ⟨same, fewer⟩ | new
    · exact List.Subset.trans fewer (h.declares (same ▸ top))
    · exact absurd (Nat.lt_of_lt_of_le h.outermost.size new.1) (top ▸ Nat.lt_irrefl _)

/-- At every moment of a run only what the program declares at the top level is bound there, and
nothing around it. -/
theorem occurs_outermost {sink : Sink} {r : Resolution}
    (ho : Occurs program { fresh sink with resolution := r } now) :
    Outermost program now.machine := by
  obtain ⟨depth, ho⟩ := ho
  have start : Inward program ⟨depth, .stmts program, { fresh sink with resolution := r }⟩ :=
    ⟨⟨Nat.lt_succ_self 1, nofun, fun _ => rfl⟩, Nat.le_refl _, fun _ => List.Subset.refl _⟩
  have inward : Inward program now := by
    induction ho with
    | refl => exact start
    | tail _ hc ih => exact ih.calls hc
  exact inward.outermost

end Machine

end ClassScript
