import ClassScript.Proofs.Machine.Mirror

/-! The steps of a machine that need no program text keep it tidy, and give values that are in
order. -/
namespace ClassScript

open Scoping (receiverNames receiverWords)

/-- A value that has no identity, such as operators make. -/
def Value.Plain : Value → Prop
  | null | bool _ | number _ | string _ => True
  | function _ _ | classRef _ | object _ _ => False

theorem ValueOk.of_plain {program : List Stmt} {w : World} {v : Value} (h : v.Plain) :
    ValueOk program w v := by
  cases v with
  | null | bool | number | string => trivial
  | function | classRef | object => cases h

namespace Machine

variable {program : List Stmt} {r : Resolution} {layout : List (List String)} {m m' : Machine}
  {α : Type}

theorem Keeps.grows {fresh : ScopeId → String → Prop} (h : Keeps fresh m m') :
    (world layout m).Grows (world layout m') :=
  ⟨List.prefix_refl _, h.later⟩

/-- A run that goes on from one machine to another keeps it tidy, in a layout that has grown. -/
def Reaches (program : List Stmt) (r : Resolution) (layout : List (List String)) (m m' : Machine)
    (post : List (List String) → Prop) : Prop :=
  ∃ layout', (world layout m).Grows (world layout' m') ∧ Tidy program r layout' m' ∧ post layout'

namespace Reaches

variable {m'' : Machine} {post post' : List (List String) → Prop}

theorem here (ht : Tidy program r layout m) (hp : post layout) :
    Reaches program r layout m m post := ⟨layout, .refl _, ht, hp⟩

theorem trans (h : Reaches program r layout m m' post)
    (hn : ∀ layout', (world layout m).Grows (world layout' m') → Tidy program r layout' m' →
      post layout' → Reaches program r layout' m' m'' post') :
    Reaches program r layout m m'' post' := by
  obtain ⟨layout', hg, ht, hp⟩ := h
  obtain ⟨layout'', hg', ht', hp'⟩ := hn layout' hg ht hp
  exact ⟨layout'', hg.trans hg', ht', hp'⟩

end Reaches

section Scopes

theorem onScopes_ok {line : Nat} {action : Scopes.Action α} {a : α} :
    onScopes line action m = .ok a m' ↔
      ∃ t, action m.scopes = .ok a t ∧ m' = { m with scopes := t } := by
  rw [onScopes_eq]
  cases action m.scopes with
  | ok b t =>
    constructor
    · intro h
      cases h
      exact ⟨t, rfl, rfl⟩
    · rintro ⟨_, h, rfl⟩
      cases h
      rfl
  | error cause t =>
    constructor
    · intro h
      cases h
    · rintro ⟨_, h, -⟩
      cases h

theorem lookup_eq (id : Nat) (name : String) (line : Nat) (m : Machine) :
    lookup id name line m =
      match m.resolution.distance? id with
      | some distance => onScopes line (Scopes.readAt m.current distance name) m
      | none => onScopes line (Scopes.read m.current name) m := by
  rw [lookup, get_bind]
  cases m.resolution.distance? id <;> rfl

theorem assign_eq (id : Nat) (name : Token) (v : Value) (m : Machine) :
    assign id name v m =
      match m.resolution.distance? id with
      | some distance => onScopes name.line (Scopes.assignAt m.current distance name.lexeme v) m
      | none => onScopes name.line (Scopes.assign m.current name.lexeme v) m := by
  rw [assign, get_bind]
  cases m.resolution.distance? id <;> rfl

theorem define_eq (name : Token) (v : Value) (constant : Bool) (m : Machine) :
    define name v constant m =
      onScopes name.line (Scopes.define m.current name.lexeme v constant) m := rfl

theorem objectMember_eq (id : Nat) (c : Class) (name : String) (m : Machine) :
    objectMember id c name m =
      match m.objects.field? id name with
      | some value => .ok (some value) m
      | none => bindValue (c.findMethod? name) (.object id c) m := by
  rw [objectMember, get_bind]
  cases m.objects.field? id name <;> rfl

theorem readIn_ok {id : ScopeId} {name : String} {v : Value} {t t' : Scopes}
    (h : Scopes.readIn id name t = .ok v t') :
    t' = t ∧ ∃ b, t.binding? id name = some b ∧ b.value = v := by
  rw [Scopes.readIn_eq] at h
  split at h
  · rename_i b hb
    cases h
    exact ⟨rfl, b, hb, rfl⟩
  · cases h

/-- What a reference stands for is bound in some scope. -/
theorem lookup_ok {id : Nat} {name : String} {line : Nat} {v : Value}
    (h : lookup id name line m = .ok v m') :
    m' = m ∧ ∃ scope b, m.scopes.binding? scope name = some b ∧ b.value = v := by
  rw [lookup_eq] at h
  split at h
  · obtain ⟨t, hs, rfl⟩ := onScopes_ok.mp h
    rw [Scopes.readAt_eq] at hs
    split at hs
    · obtain ⟨rfl, hb⟩ := readIn_ok hs
      exact ⟨rfl, _, hb⟩
    · cases hs
  · obtain ⟨t, hs, rfl⟩ := onScopes_ok.mp h
    rw [Scopes.read_eq] at hs
    split at hs
    · obtain ⟨rfl, hb⟩ := readIn_ok hs
      exact ⟨rfl, _, hb⟩
    · cases hs

theorem lookup_upkeep (ht : Tidy program r layout m) {id : Nat} {name : String} {line : Nat}
    {v : Value} (h : lookup id name line m = .ok v m') :
    m' = m ∧ ValueOk program (world layout m) v := by
  obtain ⟨rfl, scope, b, hb, rfl⟩ := lookup_ok h
  exact ⟨rfl, ht.values scope name b hb⟩

theorem assign_upkeep (ht : Tidy program r layout m) {id : Nat} {name : Token} {v : Value}
    {u : Unit} (h : assign id name v m = .ok u m') (hv : ValueOk program (world layout m) v) :
    Tidy program r layout m' := by
  rw [assign_eq] at h
  split at h
  · obtain ⟨t, hs, rfl⟩ := onScopes_ok.mp h
    rw [Scopes.assignAt_eq] at hs
    split at hs
    · exact ht.assignIn hs hv
    · cases hs
  · obtain ⟨t, hs, rfl⟩ := onScopes_ok.mp h
    rw [Scopes.assign_eq] at hs
    split at hs
    · exact ht.assignIn hs hv
    · cases hs

/-- A declaration in the current scope binds its name there. -/
theorem define_bound {name : Token} {v : Value} {constant : Bool} {u : Unit}
    (hc : m.current < m.scopes.all.size) (h : define name v constant m = .ok u m') :
    (m'.scopes.binding? m'.current name.lexeme).isSome := by
  obtain ⟨t, hs, rfl⟩ := onScopes_ok.mp (define_eq .. ▸ h)
  rw [Scopes.define_eq] at hs
  split at hs
  · cases hs
  · cases hs
    rw [Scopes.binding?_add hc, if_pos ⟨rfl, rfl⟩]
    rfl

theorem define_upkeep (ht : Tidy program r layout m) {name : Token} {v : Value} {constant : Bool}
    {u : Unit} (h : define name v constant m = .ok u m') (hc : m.current < m.scopes.all.size)
    (hl : topLevel < m.current → ∃ names, layout[m.current]? = some names ∧ name.lexeme ∈ names)
    (hn : name.IsName) (hv : ValueOk program (world layout m') v) : Tidy program r layout m' := by
  obtain ⟨t, hs, rfl⟩ := onScopes_ok.mp (define_eq .. ▸ h)
  exact ht.define hc hl hn.ne_super hs hv

/-- The parameters of a call are bound to its arguments, one by one. -/
theorem bindArguments_upkeep {scope : ScopeId} {names : List String} {params : List Token}
    {arguments : List Value} {u : Unit} (ht : Tidy program r layout m)
    (hl : layout[scope]? = some names) (hp : ∀ p ∈ params, p.IsName ∧ p.lexeme ∈ names)
    (ha : ∀ v ∈ arguments, ValueOk program (world layout m) v)
    (hn : arguments.length = params.length)
    (h : bindArguments scope params arguments m = .ok u m') :
    Tidy program r layout m' ∧
      ∀ p ∈ params, (m'.scopes.binding? scope p.lexeme).isSome := by
  induction params generalizing m arguments with
  | nil =>
    cases arguments <;> cases h <;> exact ⟨ht, by simp⟩
  | cons p ps ih =>
    cases arguments with
    | nil => cases hn
    | cons a as =>
      rw [bindArguments] at h
      obtain ⟨_, m₁, hd, hr⟩ := bind_ok.mp h
      have hs : scope < m.scopes.all.size := ht.size ▸ (List.getElem?_eq_some_iff.mp hl).1
      have kept : Keeps (fun _ _ => True) m m₁ :=
        (onScopes_keeps (Scopes.Steady.define trivial)).ok hd
      have rest := (bindArguments_keeps scope ps as).ok hr
      obtain ⟨t, hs', rfl⟩ := onScopes_ok.mp hd
      obtain ⟨hpn, hpl⟩ := hp p (by simp)
      have tidy := ht.define hs (fun _ => ⟨names, hl, hpl⟩) hpn.ne_super hs'
        ((ha a (by simp)).mono kept.grows)
      obtain ⟨tidy', bound⟩ := ih tidy (fun p' hm => hp p' (List.mem_cons_of_mem _ hm))
        (fun v hm => (ha v (List.mem_cons_of_mem _ hm)).mono kept.grows) (Nat.succ.inj hn) hr
      refine ⟨tidy', ?_⟩
      intro p' hm
      rcases List.mem_cons.mp hm with rfl | hm
      · refine rest.steady.bound ?_
        rw [Scopes.define_eq] at hs'
        split at hs'
        · cases hs'
        · cases hs'
          rw [Scopes.binding?_add hs, if_pos ⟨rfl, rfl⟩]
          rfl
      · exact bound p' hm

end Scopes

section Values

theorem newFunction_upkeep (ht : Tidy program r layout m) {code : Closure} {v : Value}
    (hc : ClosureOk program (world layout m) code) (h : newFunction code m = .ok v m') :
    Tidy program r layout m' ∧ m'.scopes = m.scopes ∧ ValueOk program (world layout m') v := by
  cases h
  exact ⟨ht.same rfl rfl rfl, rfl, hc⟩

/-- A method is bound in a scope of its receiver, which mirrors that of the walk. -/
theorem bind_upkeep (ht : Tidy program r layout m) {found : FoundMethod} {receiver : Value}
    {code : Closure} (hf : MethodFound program (world layout m) found)
    (hr : ValueOk program (world layout m) receiver) (h : bind found receiver m = .ok code m') :
    code.declaration = found.method.declaration ∧
      Reaches program r layout m m' fun layout' => ClosureOk program (world layout' m') code := by
  obtain ⟨declared, scopes, hfound, hm⟩ := hf.method
  rw [bind] at h
  obtain ⟨scope, m₁, ho, hp⟩ := bind_ok.mp h
  cases hp
  refine ⟨rfl, ?_⟩
  -- the bindings have the names that the walk keeps for a receiver of the class
  cases hs : found.superclass with
  | none =>
    rw [hs] at ho hfound
    have opens : Tidy.Opens program layout m [("this", ⟨receiver, true⟩)] (receiverWords .base) :=
      .of_entries rfl (by simpa using hr) (by simp)
    have op := ht.opened (ht.lt_size hm) opens ho
    have names : [("this", (⟨receiver, true⟩ : Binding))].map Prod.fst =
        (receiverNames .base).map Prod.fst := rfl
    refine ⟨_, op.grows, op.tidy, _, _, hfound, op.mirrors hm fun x hx => ?_⟩
    exact (isSome_lookup_congr names x).trans (Option.isSome_of_eq_some hx)
  | some superclass =>
    rw [hs] at ho hfound
    have hsuper : ValueOk program (world layout m) (.classRef superclass) :=
      hf.superclass superclass hs
    have opens : Tidy.Opens program layout m
        [("super", ⟨.classRef superclass, true⟩), ("this", ⟨receiver, true⟩)]
        (receiverWords .derived) :=
      .of_entries rfl (by simp [hr, hsuper]) (by simp)
    have op := ht.opened (ht.lt_size hm) opens ho
    have names : [("super", (⟨.classRef superclass, true⟩ : Binding)),
        ("this", ⟨receiver, true⟩)].map Prod.fst = (receiverNames .derived).map Prod.fst := rfl
    refine ⟨_, op.grows, op.tidy, _, _, hfound, op.mirrors hm fun x hx => ?_⟩
    exact (isSome_lookup_congr names x).trans (Option.isSome_of_eq_some hx)

theorem bindValue_upkeep (ht : Tidy program r layout m) {found : Option FoundMethod}
    {receiver : Value} {v : Option Value} (hf : ∀ f ∈ found, MethodFound program (world layout m) f)
    (hr : ValueOk program (world layout m) receiver) (h : bindValue found receiver m = .ok v m') :
    Reaches program r layout m m' fun layout' => ∀ x ∈ v, ValueOk program (world layout' m') x := by
  cases found with
  | none =>
    cases h
    exact .here ht (by simp)
  | some f =>
    rw [bindValue] at h
    obtain ⟨code, m₁, hb, h⟩ := bind_ok.mp h
    obtain ⟨value, m₂, hn, h⟩ := bind_ok.mp h
    cases h
    refine (bind_upkeep ht (hf f rfl) hr hb).2.trans fun layout' _ ht' hc => ?_
    obtain ⟨tidy, -, hv⟩ := newFunction_upkeep ht' hc hn
    refine ⟨layout', ((newFunction_unchanged code).ok hn).grows, tidy, ?_⟩
    rintro x ⟨⟩
    exact hv

theorem objectMember_upkeep (ht : Tidy program r layout m) {id : Nat} {c : Class} {name : String}
    {v : Option Value} (hc : ChainOk program (world layout m) c.chain)
    (h : objectMember id c name m = .ok v m') :
    Reaches program r layout m m' fun layout' => ∀ x ∈ v, ValueOk program (world layout' m') x := by
  rw [objectMember_eq] at h
  split at h
  · rename_i value hx
    cases h
    refine .here ht ?_
    rintro x ⟨⟩
    exact ht.fields id name value hx
  · exact bindValue_upkeep ht (fun f hm => findMethod?_found hc hm)
      (show ValueOk program (world layout m) (.object id c) from hc) h

theorem property_upkeep (ht : Tidy program r layout m) {receiver : Value} {name : Token} {v : Value}
    (hr : ValueOk program (world layout m) receiver) (h : property receiver name m = .ok v m') :
    Reaches program r layout m m' fun layout' => ValueOk program (world layout' m') v := by
  have answer {found : Option Value} {m₁ : Machine} (h : (match found with
      | some value => return value
      | none => fault (.undefinedProperty receiver.display name.lexeme) name.line : Run Value) m₁ =
        .ok v m') : found = some v ∧ m' = m₁ := by
    cases found <;> cases h
    exact ⟨rfl, rfl⟩
  cases receiver with
  | object id c =>
    obtain ⟨found, m₁, hf, h⟩ := bind_ok.mp h
    obtain ⟨rfl, rfl⟩ := answer h
    obtain ⟨layout', hg, tidy, hv⟩ := objectMember_upkeep ht hr hf
    exact ⟨layout', hg, tidy, hv v rfl⟩
  | classRef c =>
    obtain ⟨found, m₁, hf, h⟩ := bind_ok.mp h
    obtain ⟨rfl, rfl⟩ := answer h
    obtain ⟨layout', hg, tidy, hv⟩ :=
      bindValue_upkeep ht (fun f hm => findStatic?_found hr hm) hr hf
    exact ⟨layout', hg, tidy, hv v rfl⟩
  | null | bool | number | string | function => cases h

/-- The method that `super` gives is bound to the receiver. -/
theorem found_upkeep (ht : Tidy program r layout m) {found : Option FoundMethod}
    {receiver v : Value} {cause : RuntimeFault} {line : Nat} (h : (match found with
      | some found => bind found receiver >>= newFunction
      | none => fault cause line : Run Value) m = .ok v m')
    (hf : ∀ f ∈ found, MethodFound program (world layout m) f)
    (hr : ValueOk program (world layout m) receiver) :
    Reaches program r layout m m' fun layout' => ValueOk program (world layout' m') v := by
  cases found with
  | none => cases h
  | some found =>
    obtain ⟨code, m₃, hb, hn⟩ := bind_ok.mp h
    refine (bind_upkeep ht (hf found rfl) hr hb).2.trans fun layout' _ ht' hc => ?_
    obtain ⟨tidy, -, hv⟩ := newFunction_upkeep ht' hc hn
    exact ⟨layout', ((newFunction_unchanged code).ok hn).grows, tidy, hv⟩

theorem superMember_upkeep (ht : Tidy program r layout m) {id : Nat} {keyword method : Token}
    {v : Value} (h : superMember id keyword method m = .ok v m') :
    Reaches program r layout m m' fun layout' => ValueOk program (world layout' m') v := by
  unfold superMember at h
  obtain ⟨superclass, m₁, hs, h₁⟩ := bind_ok.mp h
  obtain ⟨rfl, hsv⟩ := lookup_upkeep ht hs
  obtain ⟨receiver, m₂, hr, h₂⟩ := bind_ok.mp h₁
  obtain ⟨rfl, hrv⟩ := lookup_upkeep ht hr
  cases superclass with
  | classRef c =>
    cases receiver with
    | classRef => exact found_upkeep ht h₂ (fun f hf => findStatic?_found hsv hf) hrv
    | null | bool | number | string | function | object =>
      exact found_upkeep ht h₂ (fun f hf => findMethod?_found hsv hf) hrv
  | null | bool | number | string | function | object => cases h₂

end Values

section Operators

theorem ofLiteral_plain (value : Literal) : (Value.ofLiteral value).Plain := by
  cases value <;> trivial

theorem applyUnary_plain {operator : Token} {operand v : Value}
    (h : operand.applyUnary operator = .ok v) : v.Plain := by
  unfold Value.applyUnary at h
  split at h <;> cases h <;> trivial

theorem applyBinary_plain {operator : Token} {left right v : Value}
    (h : left.applyBinary operator right = .ok v) : v.Plain := by
  have divided {operation : Float → Float → Float}
      (h : Value.divideBy operation operator left right = .ok v) : v.Plain := by
    obtain ⟨pair, -, h⟩ := except_bind_ok.mp h
    dsimp only at h
    split at h <;> cases h
    trivial
  have ordered {onNumbers : Float → Float → Bool} {onTexts : String → String → Bool}
      (h : Value.order onNumbers onTexts operator left right = .ok v) : v.Plain := by
    unfold Value.order at h
    split at h <;> cases h <;> trivial
  unfold Value.applyBinary at h
  split at h
  · unfold Value.add at h
    split at h <;> cases h <;> trivial
  · obtain ⟨pair, -, h⟩ := except_bind_ok.mp h
    cases h
    trivial
  · obtain ⟨pair, -, h⟩ := except_bind_ok.mp h
    cases h
    trivial
  · exact divided h
  · exact divided h
  · cases h
    trivial
  · cases h
    trivial
  · exact ordered h
  · exact ordered h
  · exact ordered h
  · exact ordered h
  · cases h

theorem ofExcept_ok {line : Nat} {result : Except RuntimeFault Value} {v : Value}
    (h : ofExcept line result m = .ok v m') : m' = m ∧ result = .ok v := by
  cases result <;> cases h
  exact ⟨rfl, rfl⟩

theorem onSink_upkeep (ht : Tidy program r layout m) {action : EStateM SinkFault Sink α} {a : α}
    (h : onSink action m = .ok a m') : Tidy program r layout m' := by
  simp only [onSink] at h
  split at h <;> cases h
  exact ht.same rfl rfl rfl

end Operators

end Machine

end ClassScript
