import ClassScript.Proofs.Machine.Composition
import ClassScript.Proofs.Store.Steady
import ClassScript.Proofs.Syntax.Proper

/-! What a task leaves alone, however it ends: the current scope, the distances of references, and
the store of scopes up to the names that the task declares in the current scope. -/
namespace ClassScript

namespace Machine

variable {fresh : ScopeId → String → Prop} {names : List String} {m m' : Machine} {α : Type}

/-- The machine stays in its scope, and its scopes gain names only where `fresh` allows it. -/
structure Keeps (fresh : ScopeId → String → Prop) (m m' : Machine) : Prop where
  current : m'.current = m.current
  resolution : m'.resolution = m.resolution
  steady : m.scopes.Steady fresh m'.scopes

instance : IsPreorder Machine (Keeps fresh) where
  refl m := ⟨rfl, rfl, refl_of (Scopes.Steady fresh) m.scopes⟩
  trans _ _ _ h h' := ⟨h'.current.trans h.current, h'.resolution.trans h.resolution,
    trans_of (Scopes.Steady fresh) h.steady h'.steady⟩

theorem Keeps.mono {fresh' : ScopeId → String → Prop} (h : Keeps fresh m m')
    (hf : ∀ id x, id < m.scopes.all.size → fresh id x → fresh' id x) : Keeps fresh' m m' :=
  ⟨h.current, h.resolution, h.steady.mono hf⟩

/-- Whatever is declared, the store only grows. -/
theorem Keeps.later (h : Keeps fresh m m') : m.scopes.Steady (fun _ _ => True) m'.scopes :=
  h.steady.mono fun _ _ _ _ => trivial

/-- Nothing is declared in any scope that there is. -/
abbrev Unchanged : Machine → Machine → Prop := Keeps fun _ _ => False

theorem Unchanged.keeps (h : Unchanged m m') : Keeps fresh m m' :=
  Keeps.mono h fun _ _ _ => False.elim

/-- Only these names are declared, and only in the current scope. -/
def Frame (names : List String) (m m' : Machine) : Prop :=
  Keeps (fun id x => id = m.current ∧ x ∈ names) m m'

instance : IsPreorder Machine (Frame names) where
  refl m := refl_of (Keeps _) m
  trans m m' m'' h h' := by
    unfold Frame at *
    rw [h.current] at h'
    exact trans_of (Keeps _) h h'

theorem Unchanged.frame (h : Unchanged m m') : Frame names m m' := h.keeps

theorem Frame.unchanged (h : Frame [] m m') : Unchanged m m' :=
  Keeps.mono h fun _ _ _ hx => nomatch hx.2

theorem Frame.mono {names' : List String} (h : Frame names m m') (hs : names ⊆ names') :
    Frame names' m m' := Keeps.mono h fun _ _ _ hx => ⟨hx.1, hs hx.2⟩

section Steps

theorem onScopes_keeps {line : Nat} {action : Scopes.Action α}
    (h : Leads (Scopes.Steady fresh) action) : Leads (Keeps fresh) (onScopes line action) := by
  intro m
  have hm := h m.scopes
  rw [onScopes_eq]
  cases ha : action m.scopes <;> rw [ha] at hm <;> exact ⟨rfl, rfl, hm⟩

/-- What only reads the scopes changes nothing. -/
theorem onScopes_leads {line : Nat} {action : Scopes.Action α} (h : Leads Eq action) :
    Leads Eq (onScopes line action) := by
  intro m
  have hm := h m.scopes
  rw [onScopes_eq]
  cases ha : action m.scopes <;> rw [ha] at hm <;> cases hm <;> rfl

theorem onSink_unchanged (action : EStateM SinkFault Sink α) : Leads Unchanged (onSink action) := by
  intro m
  simp only [onSink]
  split <;> exact ⟨rfl, rfl, refl_of (Scopes.Steady _) m.scopes⟩

/-- A step that changes neither scopes nor distances. -/
theorem modify_unchanged {change : Machine → Machine}
    (h : ∀ m, (change m).current = m.current ∧ (change m).resolution = m.resolution ∧
      (change m).scopes = m.scopes) : Leads Unchanged (modify change : Run PUnit) := by
  refine Leads.modify fun m => ?_
  obtain ⟨hc, hr, hs⟩ := h m
  refine ⟨hc, hr, ?_⟩
  rw [hs]
  exact refl_of (Scopes.Steady _) m.scopes

theorem newIdentity_unchanged : Leads Unchanged newIdentity :=
  fun m => ⟨rfl, rfl, refl_of (Scopes.Steady _) m.scopes⟩

theorem newObject_unchanged (c : Class) : Leads Unchanged (newObject c) :=
  fun m => ⟨rfl, rfl, refl_of (Scopes.Steady _) m.scopes⟩

theorem setField_unchanged (id : Nat) (name : String) (value : Value) :
    Leads Unchanged (setField id name value) := modify_unchanged fun _ => ⟨rfl, rfl, rfl⟩

theorem fault_unchanged (cause : RuntimeFault) (line : Nat) :
    Leads Unchanged (fault cause line : Run α) := Leads.throw _

theorem newFunction_unchanged (code : Closure) : Leads Unchanged (newFunction code) :=
  newIdentity_unchanged.bind fun _ => Leads.pure _

theorem lookup_leads (id : Nat) (name : String) (line : Nat) : Leads Eq (lookup id name line) := by
  refine Leads.get_bind fun m => ?_
  split
  · exact onScopes_leads Scopes.readAt_leads
  · exact onScopes_leads Scopes.read_leads

theorem lookup_unchanged (id : Nat) (name : String) (line : Nat) :
    Leads Unchanged (lookup id name line) :=
  (lookup_leads id name line).imp fun m _ h => h ▸ refl_of (Keeps _) m

theorem assign_unchanged (id : Nat) (name : Token) (value : Value) :
    Leads Unchanged (assign id name value) := by
  refine Leads.get_bind fun m => ?_
  split
  · exact onScopes_keeps Scopes.Steady.assignAt
  · exact onScopes_keeps Scopes.Steady.assign

theorem define_frame (name : Token) (value : Value) (constant : Bool) :
    Leads (Frame [name.lexeme]) (define name value constant) := by
  intro m
  exact onScopes_keeps (Scopes.Steady.define ⟨rfl, List.mem_singleton_self _⟩) m

theorem openScope_unchanged (parent : ScopeId) (bindings : List (String × Binding)) :
    Leads Unchanged (openScope parent bindings) := onScopes_keeps (Scopes.Steady.create _)

theorem bind_unchanged (found : FoundMethod) (receiver : Value) :
    Leads Unchanged (bind found receiver) :=
  (openScope_unchanged _ _).bind fun _ => Leads.pure _

theorem bindValue_unchanged (found : Option FoundMethod) (receiver : Value) :
    Leads Unchanged (bindValue found receiver) := by
  cases found with
  | none => exact Leads.pure _
  | some found =>
    exact (bind_unchanged _ _).bind fun _ => (newFunction_unchanged _).bind fun _ => Leads.pure _

theorem answer_unchanged (found : Option Value) (cause : RuntimeFault) (line : Nat) :
    Leads Unchanged (match found with
      | some value => return value
      | none => fault cause line : Run Value) := by
  cases found
  · exact fault_unchanged _ _
  · exact Leads.pure _

theorem property_unchanged (receiver : Value) (name : Token) :
    Leads Unchanged (property receiver name) := by
  have object (id : Nat) (c : Class) : Leads Unchanged (objectMember id c name.lexeme) := by
    refine Leads.get_bind fun m => ?_
    split
    · exact Leads.pure _
    · exact bindValue_unchanged _ _
  have answer (found : Option Value) := answer_unchanged found
    (.undefinedProperty receiver.display name.lexeme) name.line
  unfold property
  cases receiver with
  | object id c => exact (object id c).bind answer
  | classRef c => exact (bindValue_unchanged _ _).bind answer
  | _ => exact (fault_unchanged _ _).bind answer

theorem superMember_unchanged (id : Nat) (keyword method : Token) :
    Leads Unchanged (superMember id keyword method) := by
  refine (lookup_unchanged _ _ _).bind fun superclass =>
    (lookup_unchanged _ _ _).bind fun receiver => ?_
  cases superclass with
  | classRef c =>
    dsimp only
    split
    · exact (bind_unchanged _ _).bind fun _ => newFunction_unchanged _
    · exact fault_unchanged _ _
  | _ => exact fault_unchanged _ _

theorem print_unchanged (value : Value) : Leads Unchanged (print value) :=
  Leads.get_bind fun _ => onSink_unchanged _

theorem ofExcept_unchanged (line : Nat) (result : Except RuntimeFault Value) :
    Leads Unchanged (ofExcept line result) := by
  cases result
  · exact fault_unchanged _ _
  · exact Leads.pure _

/-- Arguments are bound in the scope of the call. -/
theorem bindArguments_keeps (scope : ScopeId) (parameters : List Token) (arguments : List Value) :
    Leads (Keeps fun id x => id = scope ∧ x ∈ parameters.map Token.lexeme)
      (bindArguments scope parameters arguments) := by
  induction parameters generalizing arguments with
  | nil => exact Leads.pure _
  | cons p ps ih =>
    cases arguments with
    | nil => exact Leads.pure _
    | cons a as =>
      refine (onScopes_keeps (Scopes.Steady.define ⟨rfl, by simp⟩)).bind fun _ => ?_
      exact (ih as).imp fun s t h => h.mono fun _ _ _ hx => ⟨hx.1, List.mem_cons_of_mem _ hx.2⟩

/-- What is done in another scope stays in that scope. -/
theorem within_keeps {scope : ScopeId} {steps : Run α} (h : Leads (Frame names) steps) :
    Leads (Keeps fun id _ => id = scope) (within scope steps) := by
  intro m
  have hs := h { m with current := scope }
  simp only [within]
  cases hr : steps { m with current := scope } <;> rw [hr] at hs <;>
    exact ⟨rfl, hs.resolution, hs.steady.mono fun _ _ _ hx => hx.1⟩

/-- What is declared in a new scope changes no old one. -/
theorem opened_unchanged {parent : ScopeId} {bindings : List (String × Binding)}
    {steps : ScopeId → Run α} (h : ∀ scope, Leads (Keeps fun id _ => id = scope) (steps scope)) :
    Leads Unchanged (openScope parent bindings >>= steps) := by
  intro m
  have ho := openScope_unchanged parent bindings m
  have hs := h m.scopes.all.size
  cases hr : openScope parent bindings m with
  | error e m' => cases hr
  | ok scope m' =>
    have hscope : scope = m.scopes.all.size := by
      cases hr
      rfl
    rw [bind_of_ok hr, hscope]
    rw [hr] at ho
    have both := trans_of (Keeps fun id _ => id = m.scopes.all.size) (Unchanged.keeps ho) (hs m')
    exact both.mono fun id x hid hx => absurd hx (Nat.ne_of_lt hid)

end Steps

/-- The names that a task declares in the current scope. -/
def Task.declares : Task → List String
  | stmt s => s.declared
  | stmts ss => Stmt.declaredAll ss
  | declareClass name _ _ _ => [name.lexeme]
  | _ => []

section Tasks

variable {depth : Nat} (ih : ∀ t : Task, Leads (Frame t.declares) (perform depth t))

include ih

theorem evaluate_frame (e : Expr) : Leads (Frame []) (evaluate (depth + 1) e) := by
  have sub (e : Expr) : Leads (Frame []) (evaluate depth e) := ih (.expr e)
  have all (es : List Expr) : Leads (Frame []) (evaluateAll depth es) := ih (.exprs es)
  have applied (v : Value) (vs : List Value) : Leads (Frame []) (apply depth v vs) :=
    ih (.apply v vs)
  have plain {α : Type} {step : Run α} (h : Leads Unchanged step) : Leads (Frame []) step :=
    h.imp fun _ _ => Unchanged.frame
  cases e with
  | literal value => exact Leads.pure _
  | group inner => exact sub inner
  | var id name => exact plain (lookup_unchanged _ _ _)
  | assign id name value =>
    exact (sub value).bind fun _ => (plain (assign_unchanged _ _ _)).bind fun _ => Leads.pure _
  | unary operator operand =>
    exact (sub operand).bind fun _ => plain (ofExcept_unchanged _ _)
  | binary left operator right =>
    rw [evaluate]
    split
    · refine (sub left).bind fun v => ?_
      split
      · exact sub right
      · exact Leads.pure _
    · exact (sub left).bind fun _ => (sub right).bind fun _ => plain (ofExcept_unchanged _ _)
  | logical left operator right =>
    refine (sub left).bind fun v => ?_
    split
    · exact Leads.pure _
    · exact sub right
  | call callee paren arguments =>
    refine (sub callee).bind fun v => ?_
    split
    · exact plain (fault_unchanged _ _)
    · refine (all arguments).bind fun vs => ?_
      split
      · exact plain (fault_unchanged _ _)
      · exact applied v vs
  | property object name =>
    exact (sub object).bind fun _ => plain (property_unchanged _ _)
  | setProperty object name value =>
    refine (sub object).bind fun v => ?_
    split
    · exact (sub value).bind fun _ => (plain (setField_unchanged _ _ _)).bind fun _ => Leads.pure _
    · exact plain (fault_unchanged _ _)
  | thisRef id keyword => exact plain (lookup_unchanged _ _ _)
  | superMethod id keyword method => exact plain (superMember_unchanged _ _ _)

theorem execute_frame (s : Stmt) : Leads (Frame s.declared) (execute (depth + 1) s) := by
  have sub (e : Expr) : Leads (Frame s.declared) (evaluate depth e) :=
    (ih (.expr e)).imp fun _ _ h => h.mono (List.nil_subset _)
  have option (e : Option Expr) : Leads (Frame s.declared) (evaluateOption depth e) :=
    (ih (.option e)).imp fun _ _ h => h.mono (List.nil_subset _)
  have branch (b : Stmt) (hb : b.declared ⊆ s.declared) :
      Leads (Frame s.declared) (execute depth b) := (ih (.stmt b)).imp fun _ _ h => h.mono hb
  have plain {α : Type} {step : Run α} (h : Leads Unchanged step) :
      Leads (Frame s.declared) step := h.imp fun _ _ => Unchanged.frame
  cases s with
  | expr e => exact (sub e).bind fun _ => Leads.pure _
  | print e =>
    exact (sub e).bind fun _ => (plain (print_unchanged _)).bind fun _ => Leads.pure _
  | letDecl name initializer =>
    rw [Stmt.declared] at *
    exact (option initializer).bind fun _ => (define_frame _ _ _).bind fun _ => Leads.pure _
  | constDecl name initializer =>
    rw [Stmt.declared] at *
    exact (sub initializer).bind fun _ => (define_frame _ _ _).bind fun _ => Leads.pure _
  | block body =>
    refine Leads.get_bind fun m => plain (opened_unchanged fun scope => ?_)
    exact within_keeps (ih (.stmts body))
  | cond condition thenBranch elseBranch =>
    refine (sub condition).bind fun v => ?_
    split
    · refine branch thenBranch ?_
      rw [Stmt.declared]
      exact List.subset_append_left _ _
    · split
      · refine branch _ ?_
        rw [Stmt.declared, Stmt.declaredElse]
        exact List.subset_append_right _ _
      · exact Leads.pure _
  | loop condition body =>
    refine (sub condition).bind fun v => ?_
    split
    · refine (branch body (by rw [Stmt.declared]; exact List.Subset.refl _)).bind fun signal => ?_
      split
      · exact Leads.pure _
      · exact branch (.loop condition body) (List.Subset.refl _)
    · exact Leads.pure _
  | function declaration =>
    rw [Stmt.declared] at *
    refine Leads.get_bind fun m => (plain (newFunction_unchanged _)).bind fun _ => ?_
    exact (define_frame _ _ _).bind fun _ => Leads.pure _
  | ret keyword value => exact (option value).bind fun _ => Leads.pure _
  | classDecl name superclass methods statics =>
    rw [Stmt.declared] at *
    exact (ih (.declareClass name superclass methods statics)).bind fun _ => Leads.pure _

theorem declareClass_frame (name : Token) (superclass : Option Expr)
    (methods statics : List FunctionDecl) :
    Leads (Frame [name.lexeme]) (declareClass (depth + 1) name superclass methods statics) := by
  have plain {α : Type} {step : Run α} (h : Leads Unchanged step) :
      Leads (Frame [name.lexeme]) step := h.imp fun _ _ => Unchanged.frame
  refine (define_frame _ _ _).bind fun _ => ?_
  refine ((ih (.superclass superclass)).imp fun _ _ h => h.mono (List.nil_subset _)).bind
    fun _ => ?_
  refine Leads.get_bind fun m => (plain newIdentity_unchanged).bind fun _ => ?_
  exact plain (onScopes_keeps Scopes.Steady.assign)

theorem invoke_frame (code : Closure) (arguments : List Value) :
    Leads (Frame []) (invoke (depth + 1) code arguments) := by
  refine Leads.imp (opened_unchanged fun scope => ?_) fun _ _ => Unchanged.frame
  refine Leads.bind ((bindArguments_keeps _ _ _).imp fun _ _ h => ?_) fun _ => ?_
  · exact h.mono fun _ _ _ hx => hx.1
  · refine (within_keeps (ih (.stmts code.declaration.body))).bind fun signal => ?_
    cases signal <;> exact Leads.pure _

theorem apply_frame (callee : Value) (arguments : List Value) :
    Leads (Frame []) (apply (depth + 1) callee arguments) := by
  have plain {α : Type} {step : Run α} (h : Leads Unchanged step) : Leads (Frame []) step :=
    h.imp fun _ _ => Unchanged.frame
  have called (code : Closure) : Leads (Frame []) (invoke depth code arguments) :=
    ih (.invoke code arguments)
  cases callee with
  | function id code => exact called code
  | classRef c =>
    refine (plain (newObject_unchanged c)).bind fun object => ?_
    split
    · exact (plain (bind_unchanged _ _)).bind fun code => (called code).bind fun _ => Leads.pure _
    · exact Leads.pure _
  | _ => exact Leads.pure _

end Tasks

/-- However a task ends, it declares nothing but its own names in the current scope. -/
theorem perform_frame (depth : Nat) (t : Task) : Leads (Frame t.declares) (perform depth t) := by
  induction depth generalizing t with
  | zero => cases t <;> exact Leads.throw _
  | succ depth ih =>
    cases t with
    | expr e => exact evaluate_frame ih e
    | exprs es =>
      cases es with
      | nil => exact Leads.pure _
      | cons e es =>
        exact (ih (.expr e)).bind fun _ => (ih (.exprs es)).bind fun _ => Leads.pure _
    | option e =>
      cases e with
      | none => exact Leads.pure _
      | some e => exact ih (.expr e)
    | superclass e =>
      cases e with
      | none => exact Leads.pure _
      | some e =>
        refine (ih (.expr e)).bind fun v => ?_
        cases v with
        | classRef c => exact Leads.pure _
        | _ => exact (fault_unchanged _ _).imp fun _ _ => Unchanged.frame
    | apply callee arguments => exact apply_frame ih callee arguments
    | invoke code arguments => exact invoke_frame ih code arguments
    | stmt s => exact execute_frame ih s
    | stmts ss =>
      cases ss with
      | nil => exact Leads.pure _
      | cons s ss =>
        refine ((ih (.stmt s)).imp fun _ _ h => h.mono (List.subset_append_left _ _)).bind ?_
        rintro (_ | value)
        · exact (ih (.stmts ss)).imp fun _ _ h => h.mono (List.subset_append_right _ _)
        · exact Leads.pure _
    | declareClass name superclass methods statics =>
      exact declareClass_frame ih name superclass methods statics

end Machine

end ClassScript
