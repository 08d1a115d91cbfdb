import ClassScript.Proofs.Machine.Frame

/-! How far a machine has come. Its scopes keep what they have, and its identities are counted up,
whatever it is made to do and however that ends. -/
namespace ClassScript

namespace Machine

variable {m m' : Machine} {α : Type}

/-- What a machine never loses: its scopes, and the identities that are given away. -/
structure Extent where
  scopes : Scopes
  identities : Nat

structure Extent.Later (e e' : Extent) : Prop where
  scopes : e.scopes.Steady (fun _ _ => True) e'.scopes
  identities : e.identities ≤ e'.identities

instance : IsPreorder Extent Extent.Later where
  refl e := ⟨refl_of (Scopes.Steady _) e.scopes, Nat.le_refl _⟩
  trans _ _ _ h h' := ⟨trans_of (Scopes.Steady _) h.scopes h'.scopes,
    Nat.le_trans h.identities h'.identities⟩

def extent (m : Machine) : Extent := ⟨m.scopes, m.nextIdentity⟩

@[simp] theorem extent_scopes (m : Machine) : m.extent.scopes = m.scopes := rfl

/-- No identity is taken back. -/
def Counts (step : Run α) (m : Machine) : Prop := m.nextIdentity ≤ (ending (step m)).nextIdentity

theorem Counts.of_leads {step : Run α} (h : Leads Eq step) (m : Machine) : Counts step m :=
  Nat.le_of_eq (congrArg nextIdentity (h m))

theorem counting : Compositional Counts where
  pure _ _ := Nat.le_refl _
  throw _ _ := Nat.le_refl _
  bind {_ _ step next m} h hn := by
    unfold Counts at *
    cases hs : step m with
    | ok a m' =>
      rw [hs] at h
      rw [bind_of_ok hs]
      exact Nat.le_trans h (hn a m' hs)
    | error stop m' =>
      rw [hs] at h
      rw [bind_of_error hs]
      exact h
  read _ h := h
  onScopes line action m := by
    rw [Counts, onScopes_eq]
    split <;> exact Nat.le_refl _
  within {_ scope steps m} h := by
    rw [Counts, within_eq]
    unfold Counts at h
    split <;> rename_i hs <;> rw [hs] at h <;> exact h
  newIdentity _ := Nat.le_succ _
  newObject _ _ := Nat.le_refl _
  setField _ _ _ _ := Nat.le_refl _

theorem lookup_counts (id : Nat) (name : String) (line : Nat) (m : Machine) :
    Counts (lookup id name line) m := .of_leads (lookup_leads id name line) m

theorem assign_counts (id : Nat) (name : Token) (value : Value) (m : Machine) :
    Counts (assign id name value) m := by
  refine Compositional.bind counting (Compositional.pure counting m m) fun m' _ _ => ?_
  cases m'.resolution.distance? id <;> exact Compositional.onScopes counting _ _ _

theorem superMember_counts (id : Nat) (keyword method : Token) (m : Machine) :
    Counts (superMember id keyword method) m := by
  refine Compositional.bind counting (lookup_counts _ _ _ m) fun superclass m₁ _ => ?_
  refine Compositional.bind counting (lookup_counts _ _ _ m₁) fun receiver m₂ _ => ?_
  cases superclass with
  | classRef c => exact Compositional.inherited counting _ _ _ _ m₂
  | null | bool | number | string | function | object => exact Compositional.fault counting _ _ m₂

theorem print_counts (value : Value) (m : Machine) : Counts (print value) m := by
  refine Compositional.bind counting (Compositional.pure counting m m) fun m' m₁ _ => ?_
  rw [Counts, onSink_eq]
  split <;> exact Nat.le_refl _

theorem perform_counts (depth : Nat) (t : Task) (m : Machine) : Counts (perform depth t) m :=
  Compositional.perform counting depth t m fun _ _ => {
    read := fun _ _ _ => lookup_counts _ _ _ _
    receiver := fun _ _ _ => lookup_counts _ _ _ _
    superMember := fun _ _ _ _ => superMember_counts _ _ _ _
    assigned := fun _ _ _ _ _ _ _ _ _ => assign_counts _ _ _ _
    printed := fun _ _ _ _ _ _ _ => print_counts _ _ }

/-- However the step ends, the machine has come no less far. -/
def Grows (step : Run α) (m : Machine) : Prop := m.extent.Later (ending (step m)).extent

theorem Grows.ok {step : Run α} {a : α} (h : Grows step m) (hs : step m = .ok a m') :
    m.extent.Later m'.extent := by
  rwa [Grows, hs] at h

theorem Counts.grows {fresh : ScopeId → String → Prop} {step : Run α} (hn : Counts step m)
    (hk : Leads (Keeps fresh) step) : Grows step m := ⟨(hk m).later, hn⟩

theorem Grows.bind {β : Type} {step : Run α} {next : α → Run β} (h : Grows step m)
    (hn : ∀ a m', step m = .ok a m' → Grows (next a) m') : Grows (step >>= next) m := by
  cases hs : step m with
  | ok a m' =>
    rw [Grows, bind_of_ok hs]
    exact trans_of Extent.Later (h.ok hs) (hn a m' hs)
  | error stop m' =>
    rw [Grows, hs] at h
    rwa [Grows, bind_of_error hs]

section Steps

variable (m)

theorem pure_grows (a : α) : Grows (pure a : Run α) m := refl_of Extent.Later _

theorem throw_grows (stop : Stop) : Grows (throw stop : Run α) m := refl_of Extent.Later _

theorem get_grows : Grows get m := refl_of Extent.Later _

theorem fault_grows (cause : RuntimeFault) (line : Nat) : Grows (fault cause line : Run α) m :=
  throw_grows m _

theorem onScopes_grows {action : Scopes.Action α} (h : Leads (Scopes.Steady fun _ _ => True) action)
    (line : Nat) : Grows (onScopes line action) m :=
  (Compositional.onScopes counting _ _ m).grows (onScopes_keeps h)

theorem lookup_grows (id : Nat) (name : String) (line : Nat) : Grows (lookup id name line) m :=
  (lookup_counts _ _ _ m).grows (lookup_unchanged _ _ _)

theorem superMember_grows (id : Nat) (keyword method : Token) :
    Grows (superMember id keyword method) m :=
  (superMember_counts _ _ _ m).grows (superMember_unchanged _ _ _)

theorem property_grows (receiver : Value) (name : Token) : Grows (property receiver name) m :=
  (Compositional.property counting _ _ m).grows (property_unchanged _ _)

theorem ofExcept_grows (line : Nat) (result : Except RuntimeFault Value) :
    Grows (ofExcept line result) m :=
  (Compositional.ofExcept counting _ _ m).grows (ofExcept_unchanged _ _)

theorem setField_grows (id : Nat) (name : String) (value : Value) :
    Grows (setField id name value) m :=
  (Compositional.setField counting _ _ _ m).grows (setField_unchanged _ _ _)

theorem print_grows (value : Value) : Grows (print value) m :=
  (print_counts _ m).grows (print_unchanged _)

theorem openScope_grows (parent : ScopeId) (bindings : List (String × Binding)) :
    Grows (openScope parent bindings) m :=
  (Compositional.openScope counting _ _ m).grows (openScope_unchanged _ _)

theorem bind_grows (found : FoundMethod) (receiver : Value) : Grows (bind found receiver) m :=
  (Compositional.bindMethod counting _ _ m).grows (bind_unchanged _ _)

theorem newObject_grows (c : Class) : Grows (newObject c) m :=
  (Compositional.newObject counting _ m).grows (newObject_unchanged _)

theorem newIdentity_grows : Grows newIdentity m :=
  (Compositional.newIdentity counting m).grows newIdentity_unchanged

theorem newFunction_grows (code : Closure) : Grows (newFunction code) m :=
  (Compositional.newFunction counting _ m).grows (newFunction_unchanged _)

theorem assign_grows (id : Nat) (name : Token) (value : Value) : Grows (assign id name value) m :=
  (assign_counts _ _ _ m).grows (assign_unchanged _ _ _)

theorem define_grows (name : Token) (value : Value) (constant : Bool) :
    Grows (define name value constant) m := ⟨(define_frame name value constant m).later,
  Compositional.define counting _ _ _ m⟩

theorem bindArguments_grows (scope : ScopeId) (params : List Token) (arguments : List Value) :
    Grows (bindArguments scope params arguments) m :=
  (Compositional.bindArguments counting _ _ _ m).grows (bindArguments_keeps _ _ _)

theorem perform_grows (depth : Nat) (t : Task) : Grows (perform depth t) m :=
  ⟨(perform_frame depth t m).later, perform_counts depth t m⟩

end Steps

end Machine

end ClassScript
