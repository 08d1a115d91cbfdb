import ClassScript.Proofs.Machine.Account

/-! Every task keeps a lawful account in force, however it ends, and every task that is called in a
run is given only what the account knows. -/
namespace ClassScript

namespace Machine

namespace Account

variable {A : Account} {m m' : Machine} {α β : Type}

namespace Ends

variable {good : Extent → α → Prop} {good' : Extent → β → Prop}

theorem pure {a : α} (h : A.Holds m) (hg : good m.extent a) : A.Ends good ((pure a : Run α) m) :=
  ⟨h, hg⟩

/-- The next step goes on from where this one ended well. -/
theorem bind {step : Run α} {next : α → Run β} (h : A.Ends good (step m))
    (hn : ∀ a m', step m = .ok a m' → A.Holds m' → good m'.extent a → A.Ends good' (next a m')) :
    A.Ends good' ((step >>= next) m) := by
  cases hs : step m with
  | ok a m' =>
    rw [hs] at h
    rw [bind_of_ok hs]
    exact hn a m' hs h.1 h.2
  | error e m' =>
    rw [hs] at h
    rw [bind_of_error hs]
    exact h

theorem imp {good' : Extent → α → Prop} {result : EStateM.Result Stop Machine α}
    (h : A.Ends good result) (hg : ∀ e a, good e a → good' e a) : A.Ends good' result := by
  cases result with
  | ok a m' => exact ⟨h.1, hg _ _ h.2⟩
  | error e m' => exact h

theorem holds {result : EStateM.Result Stop Machine α} (h : A.Ends good result) :
    A.Holds (ending result) := by
  cases result with
  | ok a m' => exact h.1
  | error e m' => exact h

end Ends

section Steps

theorem onScopes_ends {line : Nat} {action : Scopes.Action α}
    (h : A.Holds { m with scopes := ending (action m.scopes) }) :
    A.Ends (fun _ _ => True) (onScopes line action m) := by
  rw [onScopes_eq]
  cases ha : action m.scopes <;> rw [ha] at h
  · exact ⟨h, trivial⟩
  · exact h

theorem onSink_ends (h : A.Holds m) (action : EStateM SinkFault Sink α) :
    A.Ends (fun _ _ => True) (onSink action m) := by
  simp only [onSink]
  split
  · exact ⟨h.same rfl rfl rfl rfl, trivial⟩
  · exact h.same rfl rfl rfl rfl

theorem print_ends (h : A.Holds m) (value : Value) : A.Ends (fun _ _ => True) (print value m) :=
  onSink_ends h _

theorem ofExcept_ends (h : A.Holds m) {line : Nat} {result : Except RuntimeFault Value}
    (hr : ∀ v, result = .ok v → v.Plain) : A.Ends A.Knows (ofExcept line result m) := by
  cases result with
  | ok v => exact ⟨h, .of_plain (hr v rfl)⟩
  | error cause => exact h

theorem newFunction_ends (hA : A.Lawful) (h : A.Holds m) {code : Closure}
    (hc : A.made m.extent code) : A.Ends A.Knows (newFunction code m) := by
  have later : m.extent.Later { m.extent with identities := m.nextIdentity + 1 } :=
    ⟨refl_of (Scopes.Steady _) m.scopes, Nat.le_succ _⟩
  exact ⟨h.counted hA, hA.made_mono later hc⟩

theorem setField_ends (h : A.Holds m) {value : Value} (hv : A.Knows m.extent value) (id : Nat)
    (name : String) : A.Ends (fun _ _ => True) (setField id name value m) :=
  ⟨h.setField hv, trivial⟩

theorem lookup_ends (h : A.Holds m) (id : Nat) (name : String) (line : Nat) :
    A.Ends A.Knows (lookup id name line m) := by
  have stays := lookup_leads id name line m
  cases hl : lookup id name line m with
  | ok v m' =>
    obtain ⟨rfl, scope, b, hb, rfl⟩ := lookup_ok hl
    exact ⟨h, h.bindings scope name b hb⟩
  | error e m' =>
    rw [hl] at stays
    obtain rfl : m = m' := stays
    exact h

theorem openScope_ends (hA : A.Lawful) (h : A.Holds m) {parent : ScopeId}
    (hp : parent < m.scopes.all.size) :
    A.Ends (fun e scope => scope < e.scopes.all.size) (openScope parent [] m) := by
  have holds : A.Holds { m with scopes := ⟨m.scopes.all.push ⟨[], some parent⟩⟩ } :=
    h.push hA (by simpa using hp) List.nodup_nil nofun
  have room : m.scopes.all.size < (m.scopes.all.push ⟨[], some parent⟩).size := by simp
  exact ⟨holds, room⟩

section Writes

variable (hA : A.Lawful) (h : A.Holds m) {value : Value}

include hA h

theorem define_ends (hv : A.Knows m.extent value) (name : Token) (constant : Bool) :
    A.Ends (fun _ _ => True) (define name value constant m) :=
  onScopes_ends (h.define hA h.current hv constant)

theorem assign_ends (hv : A.Knows m.extent value) (id : Nat) (name : Token) :
    A.Ends (fun _ _ => True) (assign id name value m) := by
  rw [assign_eq]
  split
  · refine onScopes_ends ?_
    rw [Scopes.assignAt_eq]
    split
    · exact h.assignIn hA hv
    · exact h
  · refine onScopes_ends ?_
    rw [Scopes.assign_eq]
    split
    · exact h.assignIn hA hv
    · exact h

end Writes

theorem bindArguments_ends (hA : A.Lawful) (h : A.Holds m) {scope : ScopeId}
    (hs : scope < m.scopes.all.size) (params : List Token) {arguments : List Value}
    (ha : ∀ v ∈ arguments, A.Knows m.extent v) :
    A.Ends (fun e _ => scope < e.scopes.all.size) (bindArguments scope params arguments m) := by
  induction params generalizing m arguments with
  | nil => cases arguments <;> exact ⟨h, hs⟩
  | cons p params ih =>
    cases arguments with
    | nil => exact ⟨h, hs⟩
    | cons a arguments =>
      rw [bindArguments]
      refine (onScopes_ends (h.define hA hs (ha a List.mem_cons_self) false)).bind ?_
      intro _ m₁ hd h₁ _
      have later := (onScopes_grows m (Scopes.Steady.define trivial) _).ok hd
      refine ih h₁ (Nat.lt_of_lt_of_le hs later.scopes.size) fun v hv => ?_
      exact hA.mono later (ha v (List.mem_cons_of_mem _ hv))

/-- What is done in another scope leaves the account in force in the scope that the machine comes
back to. -/
theorem within_ends {good : Extent → α → Prop} {steps : Run α} {scope : ScopeId}
    {names : List String} (h : A.Holds m) (hf : Leads (Frame names) steps)
    (hs : A.Ends good (steps { m with current := scope })) :
    A.Ends good (within scope steps m) := by
  have size : m.scopes.all.size ≤ _ := (hf { m with current := scope }).steady.size
  have outer := Nat.lt_of_lt_of_le h.current size
  simp only [within]
  cases hr : steps { m with current := scope } <;> rw [hr] at hs outer
  · exact ⟨hs.1.enter outer, hs.2⟩
  · exact Holds.enter hs outer

end Steps

section Methods

variable (hA : A.Lawful) {now : Moment} {before : Machine} {c : Class} {receiver : Value}
  {name : String} (h : A.InOrder now) (hb : Binds now before c receiver name) (hm : A.Holds before)
  (hc : A.family before.extent c.chain) (hr : A.Knows before.extent receiver)

include hA h hb hm hc hr

theorem bind_ends {found : FoundMethod} (hf : c.member? receiver name = some found) :
    A.Ends A.made (bind found receiver before) := by
  obtain ⟨home, superclass⟩ := hA.found hc hf
  rw [bind_eq]
  refine ⟨hm.push hA (by simpa using home) ?_ ?_, hA.bound h hb hm hc hr hf⟩
  · cases hs : found.superclass <;> simp [Scope.Distinct, FoundMethod.bindings, hs]
  · intro x b hx
    have entry : (x, b) ∈ found.bindings receiver := Scope.mem_of_find? hx
    cases hs : found.superclass with
    | none =>
      simp only [FoundMethod.bindings, hs, List.mem_singleton] at entry
      cases entry
      exact hr
    | some s =>
      simp only [FoundMethod.bindings, hs, List.mem_cons, List.not_mem_nil, or_false] at entry
      rcases entry with entry | entry <;> cases entry
      · exact superclass s hs
      · exact hr

theorem bindValue_ends :
    A.Ends (fun e v => ∀ x ∈ v, A.Knows e x)
    (bindValue (c.member? receiver name) receiver before) := by
  cases hf : c.member? receiver name with
  | none => exact ⟨hm, nofun⟩
  | some found =>
    refine (bind_ends hA h hb hm hc hr hf).bind fun code m₁ _ h₁ made => ?_
    refine (newFunction_ends hA h₁ made).bind fun v m₂ _ h₂ known => ?_
    exact .pure h₂ (by simpa using known)

/-- The method that `super` gives is bound to the receiver. -/
theorem found_ends {found : Option FoundMethod} {cause : RuntimeFault} {line : Nat} :
    c.member? receiver name = found → A.Ends A.Knows ((match found with
      | some found => bind found receiver >>= newFunction
      | none => fault cause line : Run Value) before) := by
  intro hf
  cases found with
  | none => exact hm
  | some found =>
    exact (bind_ends hA h hb hm hc hr hf).bind fun code m₁ _ h₁ made => newFunction_ends hA h₁ made

end Methods

theorem answer_ends {found : Option Value} {cause : RuntimeFault} {line : Nat} (h : A.Holds m) :
    (∀ v ∈ found, A.Knows m.extent v) → A.Ends A.Knows ((match found with
      | some value => return value
      | none => fault cause line : Run Value) m) := by
  intro hv
  cases found with
  | none => exact h
  | some value => exact .pure h (hv value rfl)

section Members

variable (hA : A.Lawful) {d : Nat}

include hA

theorem property_ends {object : Expr} {name : Token} {receiver : Value} {before : Machine}
    (h : A.InOrder ⟨d + 1, .expr (.property object name), m⟩)
    (ho : evaluate d object m = .ok receiver before) (hm : A.Holds before)
    (hr : A.Knows before.extent receiver) : A.Ends A.Knows (property receiver name before) := by
  unfold property
  cases receiver with
  | object id c =>
    have member : A.Ends (fun e v => ∀ x ∈ v, A.Knows e x)
        (objectMember id c name.lexeme before) := by
      rw [objectMember_eq]
      cases hf : before.objects.field? id name.lexeme with
      | some value =>
        refine ⟨hm, ?_⟩
        rintro x ⟨⟩
        exact hm.fields id name.lexeme value hf
      | none => exact bindValue_ends hA h (.ofObject ho hf) hm hr hr
    exact member.bind fun found m₁ _ h₁ hv => answer_ends h₁ hv
  | classRef c =>
    have member := bindValue_ends hA h (.ofClass ho) hm hr hr
    exact member.bind fun found m₁ _ h₁ hv => answer_ends h₁ hv
  | null | bool | number | string | function => exact hm

theorem superMember_ends {id : Nat} {keyword method : Token}
    (h : A.InOrder ⟨d + 1, .expr (.superMethod id keyword method), m⟩) :
    A.Ends A.Knows (superMember id keyword method m) := by
  unfold superMember
  refine (lookup_ends h.holds _ _ _).bind fun superclass m₁ hs _ hc => ?_
  obtain rfl : m = m₁ := (lookup_leads _ _ _).ok hs
  refine (lookup_ends h.holds _ _ _).bind fun receiver m₂ hr _ hv => ?_
  obtain rfl : m = m₂ := (lookup_leads _ _ _).ok hr
  cases superclass with
  | classRef c =>
    cases receiver with
    | classRef | null | bool | number | string | function | object =>
      exact found_ends hA h (.inherited hs hr) h.holds hc hv rfl
  | null | bool | number | string | function | object => exact h.holds

end Members

/-- Tasks of this depth end with the account in force, and give what it knows. -/
def Sound (A : Account) (depth : Nat) : Prop :=
  ∀ t m, A.InOrder ⟨depth, t, m⟩ → A.Ends (fun e v => A.Gives e t v) (perform depth t m)

section Calls

variable {now next : Moment} {d : Nat} {t : Task}

theorem Sound.done (hs : A.Sound d) (h : A.InOrder ⟨d, t, m⟩) {v : t.Result}
    (hp : perform d t m = .ok v m') : A.Holds m' ∧ A.Gives m'.extent t v := by
  have ends := hs t m h
  rwa [hp] at ends

theorem InOrder.call (hA : A.Lawful) (h : A.InOrder now) (hc : Calls now ⟨d, t, m⟩) (hm : A.Holds m)
    (hg : A.Given m.extent t) : A.InOrder ⟨d, t, m⟩ := ⟨hA.calls h hc hm hg, hm, hg⟩

/-- Arguments are bound in the new scope of a call. -/
theorem arguments_ends (hA : A.Lawful) {code : Closure} {arguments : List Value} {m₁ : Machine}
    {scope : ScopeId} (h : A.InOrder ⟨d, .invoke code arguments, m⟩)
    (ho : openScope code.scope [] m = .ok scope m₁) :
    A.Ends (fun e _ => scope < e.scopes.all.size)
      (bindArguments scope code.declaration.params arguments m₁) := by
  have opened := openScope_ends hA h.holds (hA.made_scope h.given.1)
  rw [ho] at opened
  refine bindArguments_ends hA opened.1 opened.2 code.declaration.params fun v hv => ?_
  exact hA.mono ((openScope_grows _ _ _).ok ho) (h.given.2 v hv)

/-- A constructor is bound to the new object of the class. -/
theorem constructor_ends (hA : A.Lawful) {c : Class} {arguments : List Value} {object : Value}
    {found : FoundMethod} {m₁ : Machine} (h : A.InOrder ⟨d + 1, .apply (.classRef c) arguments, m⟩)
    (ho : newObject c m = .ok object m₁) (hf : c.constructor? = some found) :
    A.Ends A.made (bind found object m₁) := by
  have construction :
      Binds ⟨d + 1, .apply (.classRef c) arguments, m⟩ m₁ c object constructorName :=
    .construction ho
  cases ho
  exact bind_ends hA h construction h.holds.newObject h.given.1 h.given.1 hf

/-- What a task calls is in order if the task is. -/
theorem InOrder.calls (hA : A.Lawful) (hs : A.Sound next.depth) (h : A.InOrder now)
    (hc : Calls now next) : A.InOrder next := by
  have hm := h.holds
  cases hc with
  | group => exact h.call hA .group hm trivial
  | assigned => exact h.call hA .assigned hm trivial
  | operand => exact h.call hA .operand hm trivial
  | binaryLeft => exact h.call hA .binaryLeft hm trivial
  | binaryRight hl hn =>
    have left := hs.done (h.call hA .binaryLeft hm trivial) hl
    exact h.call hA (.binaryRight hl hn) left.1 trivial
  | logicalLeft => exact h.call hA .logicalLeft hm trivial
  | logicalRight hl hn =>
    have left := hs.done (h.call hA .logicalLeft hm trivial) hl
    exact h.call hA (.logicalRight hl hn) left.1 trivial
  | callee => exact h.call hA .callee hm trivial
  | arguments hcl hv =>
    have callee := hs.done (h.call hA .callee hm trivial) hcl
    exact h.call hA (.arguments hcl hv) callee.1 trivial
  | applied hcl hv ha hn =>
    have callee := hs.done (h.call hA .callee hm trivial) hcl
    have arguments := hs.done (h.call hA (.arguments hcl hv) callee.1 trivial) ha
    have later := (perform_grows _ _ (.exprs _)).ok ha
    exact h.call hA (.applied hcl hv ha hn) arguments.1 ⟨hA.mono later callee.2, arguments.2⟩
  | propertyObject => exact h.call hA .propertyObject hm trivial
  | setObject => exact h.call hA .setObject hm trivial
  | setValue ho =>
    have object := hs.done (h.call hA .setObject hm trivial) ho
    exact h.call hA (.setValue ho) object.1 trivial
  | first => exact h.call hA .first hm trivial
  | others he =>
    have first := hs.done (h.call hA .first hm trivial) he
    exact h.call hA (.others he) first.1 trivial
  | construct ho hf hb =>
    have bound := constructor_ends hA h ho hf
    rw [hb] at bound
    have later := trans_of Extent.Later ((newObject_grows _ _).ok ho) ((bind_grows _ _ _).ok hb)
    exact h.call hA (.construct ho hf hb) bound.1
      ⟨bound.2, fun v hv => hA.mono later (h.given.2 v hv)⟩
  | function => exact h.call hA .function hm h.given
  | body ho hb =>
    have bound := arguments_ends hA h ho
    rw [hb] at bound
    exact h.call hA (.body ho hb) (bound.1.enter bound.2) trivial
  | expression => exact h.call hA .expression hm trivial
  | printed => exact h.call hA .printed hm trivial
  | letInitializer => exact h.call hA .letInitializer hm trivial
  | constInitializer => exact h.call hA .constInitializer hm trivial
  | block ho =>
    have opened := openScope_ends hA hm hm.current
    rw [ho] at opened
    exact h.call hA (.block ho) (opened.1.enter opened.2) trivial
  | condition => exact h.call hA .condition hm trivial
  | thenBranch hcn ht =>
    have condition := hs.done (h.call hA .condition hm trivial) hcn
    exact h.call hA (.thenBranch hcn ht) condition.1 trivial
  | elseBranch hcn ht =>
    have condition := hs.done (h.call hA .condition hm trivial) hcn
    exact h.call hA (.elseBranch hcn ht) condition.1 trivial
  | loopCondition => exact h.call hA .loopCondition hm trivial
  | loopBody hcn ht =>
    have condition := hs.done (h.call hA .loopCondition hm trivial) hcn
    exact h.call hA (.loopBody hcn ht) condition.1 trivial
  | again hcn ht hb =>
    have condition := hs.done (h.call hA .loopCondition hm trivial) hcn
    have body := hs.done (h.call hA (.loopBody hcn ht) condition.1 trivial) hb
    exact h.call hA (.again hcn ht hb) body.1 trivial
  | returned => exact h.call hA .returned hm trivial
  | classDecl => exact h.call hA .classDecl hm trivial
  | statement => exact h.call hA .statement hm trivial
  | rest hst =>
    have statement := hs.done (h.call hA .statement hm trivial) hst
    exact h.call hA (.rest hst) statement.1 trivial
  | present => exact h.call hA .present hm trivial
  | @extended _ m _ name _ _ _ _ hd =>
    have null : A.Knows m.extent .null := trivial
    have defined := define_ends hA hm null name false
    rw [hd] at defined
    exact h.call hA (.extended hd) defined.1 trivial
  | ancestor => exact h.call hA .ancestor hm trivial

end Calls

section Tasks

variable {depth : Nat} (hA : A.Lawful) (hs : A.Sound depth)

include hA hs

/-- A task that is called ends with the account in force. -/
theorem called {t t' : Task} {m₁ : Machine} (h : A.InOrder ⟨depth + 1, t, m⟩)
    (hc : Calls ⟨depth + 1, t, m⟩ ⟨depth, t', m₁⟩) :
    A.Ends (fun e v => A.Gives e t' v) (perform depth t' m₁) :=
  hs t' m₁ (h.calls hA hs hc)

theorem evaluate_ends {e : Expr} (h : A.InOrder ⟨depth + 1, .expr e, m⟩) :
    A.Ends A.Knows (evaluate (depth + 1) e m) := by
  cases e with
  | literal value => exact .pure h.holds (.of_plain (ofLiteral_plain value))
  | group inner => exact called hA hs h .group
  | var id name => exact lookup_ends h.holds _ _ _
  | assign id name value =>
    refine (called hA hs h .assigned).bind fun v m₁ _ h₁ known => ?_
    refine (assign_ends hA h₁ known id name).bind fun _ m₂ ha h₂ _ => ?_
    exact .pure h₂ (hA.mono ((assign_grows _ _ _ _).ok ha) known)
  | unary operator operand =>
    refine (called hA hs h .operand).bind fun v m₁ _ h₁ _ => ?_
    exact ofExcept_ends h₁ fun _ => applyUnary_plain
  | binary left operator right =>
    rw [evaluate]
    split
    · refine (called hA hs h .binaryLeft).bind fun v m₁ hl h₁ known => ?_
      split
      · rename_i hn
        exact called hA hs h (.binaryRight hl fun _ => hn)
      · exact .pure h₁ known
    · rename_i hc
      refine (called hA hs h .binaryLeft).bind fun v m₁ hl _ _ => ?_
      refine (called hA hs h (.binaryRight hl fun h => absurd h hc)).bind fun w m₂ _ h₂ _ => ?_
      exact ofExcept_ends h₂ fun _ => applyBinary_plain
  | logical left operator right =>
    refine (called hA hs h .logicalLeft).bind fun v m₁ hl h₁ known => ?_
    cases hn : settles operator v with
    | true => exact .pure h₁ known
    | false => exact called hA hs h (.logicalRight hl hn)
  | call callee paren arguments =>
    refine (called hA hs h .callee).bind fun v m₁ hc h₁ _ => ?_
    cases hv : v.callable? with
    | none => exact h₁
    | some signature =>
      refine (called hA hs h (.arguments hc hv)).bind fun vs m₂ ha h₂ _ => ?_
      split
      · exact h₂
      · rename_i hn
        exact called hA hs h (.applied hc hv ha (by simpa using hn))
  | property object name =>
    refine (called hA hs h .propertyObject).bind fun v m₁ ho h₁ known => ?_
    exact property_ends hA h ho h₁ known
  | setProperty object name value =>
    refine (called hA hs h .setObject).bind fun v m₁ ho h₁ _ => ?_
    cases v with
    | object id c =>
      refine (called hA hs h (.setValue ho)).bind fun w m₂ _ h₂ known => ?_
      exact (setField_ends h₂ known id name.lexeme).bind fun _ m₃ hf h₃ _ => by
        cases hf
        exact .pure h₃ known
    | null | bool | number | string | function | classRef => exact h₁
  | thisRef id keyword => exact lookup_ends h.holds _ _ _
  | superMethod id keyword method => exact superMember_ends hA h

theorem apply_ends {callee : Value} {arguments : List Value}
    (h : A.InOrder ⟨depth + 1, .apply callee arguments, m⟩) :
    A.Ends A.Knows (apply (depth + 1) callee arguments m) := by
  cases callee with
  | function id code => exact called hA hs h .function
  | classRef c =>
    have object : A.Ends A.Knows (newObject c m) := ⟨h.holds.newObject, h.given.1⟩
    refine object.bind fun object m₁ ho h₁ known => ?_
    cases hf : c.constructor? with
    | none => exact .pure h₁ known
    | some found =>
      refine (constructor_ends hA h ho hf).bind fun code m₂ hb h₂ _ => ?_
      refine (called hA hs h (.construct ho hf hb)).bind fun v m₃ hi h₃ _ => ?_
      have later := trans_of Extent.Later ((bind_grows _ _ _).ok hb)
        ((perform_grows _ _ (.invoke _ _)).ok hi)
      exact .pure h₃ (hA.mono later known)
  | null | bool | number | string | object => exact .pure h.holds trivial

theorem invoke_ends {code : Closure} {arguments : List Value}
    (h : A.InOrder ⟨depth + 1, .invoke code arguments, m⟩) :
    A.Ends A.Knows (invoke (depth + 1) code arguments m) := by
  have opened := openScope_ends hA h.holds (hA.made_scope h.given.1)
  refine opened.bind fun scope m₁ ho _ _ => ?_
  refine (arguments_ends hA h ho).bind fun _ m₂ hb h₂ _ => ?_
  have body := within_ends h₂ (perform_frame depth (.stmts code.declaration.body))
    (called hA hs h (.body ho hb))
  refine body.bind fun signal m₃ _ h₃ known => ?_
  cases signal with
  | normal => exact .pure h₃ trivial
  | returned value => exact .pure h₃ known

theorem execute_ends {s : Stmt} (h : A.InOrder ⟨depth + 1, .stmt s, m⟩) :
    A.Ends A.KnowsSignal (execute (depth + 1) s m) := by
  cases s with
  | expr e => exact (called hA hs h .expression).bind fun _ _ _ h₁ _ => .pure h₁ trivial
  | print e =>
    refine (called hA hs h .printed).bind fun v m₁ _ h₁ _ => ?_
    exact (print_ends h₁ v).bind fun _ _ _ h₂ _ => .pure h₂ trivial
  | letDecl name initializer =>
    refine (called hA hs h .letInitializer).bind fun v m₁ _ h₁ known => ?_
    exact (define_ends hA h₁ known name false).bind fun _ _ _ h₂ _ => .pure h₂ trivial
  | constDecl name initializer =>
    refine (called hA hs h .constInitializer).bind fun v m₁ _ h₁ known => ?_
    exact (define_ends hA h₁ known name true).bind fun _ _ _ h₂ _ => .pure h₂ trivial
  | block body =>
    have opens : execute (depth + 1) (.block body) m = (openScope m.current [] >>= fun scope =>
        within scope (executeAll depth body)) m := rfl
    rw [opens]
    refine (openScope_ends hA h.holds h.holds.current).bind fun scope m₁ ho h₁ _ => ?_
    exact within_ends h₁ (perform_frame depth (.stmts body)) (called hA hs h (.block ho))
  | cond condition thenBranch elseBranch =>
    refine (called hA hs h .condition).bind fun v m₁ hc h₁ _ => ?_
    cases ht : v.truthy with
    | true => exact called hA hs h (.thenBranch hc ht)
    | false =>
      cases elseBranch with
      | none => exact .pure h₁ trivial
      | some elseBranch => exact called hA hs h (.elseBranch hc ht)
  | loop condition body =>
    refine (called hA hs h .loopCondition).bind fun v m₁ hc h₁ _ => ?_
    cases ht : v.truthy with
    | false => exact .pure h₁ trivial
    | true =>
      refine (called hA hs h (.loopBody hc ht)).bind fun signal m₂ hb h₂ known => ?_
      cases signal with
      | normal => exact called hA hs h (.again hc ht hb)
      | returned value => exact .pure h₂ known
  | function declaration =>
    have makes : execute (depth + 1) (.function declaration) m =
        (newFunction ⟨declaration, m.current⟩ >>= fun value =>
          define declaration.name value false >>= fun _ => pure .normal) m := rfl
    rw [makes]
    refine (newFunction_ends hA h.holds (hA.function h)).bind fun v m₁ _ h₁ known => ?_
    exact (define_ends hA h₁ known declaration.name false).bind fun _ _ _ h₂ _ => .pure h₂ trivial
  | ret keyword value =>
    exact (called hA hs h .returned).bind fun v _ _ h₁ known => .pure h₁ known
  | classDecl name superclass methods statics =>
    exact (called hA hs h .classDecl).bind fun _ _ _ h₁ _ => .pure h₁ trivial

theorem declareClass_ends {name : Token} {superclass : Option Expr}
    {methods statics : List FunctionDecl}
    (h : A.InOrder ⟨depth + 1, .declareClass name superclass methods statics, m⟩) :
    A.Ends (fun _ _ => True) (declareClass (depth + 1) name superclass methods statics m) := by
  have null : A.Knows m.extent .null := trivial
  refine (define_ends hA h.holds null name false).bind fun _ m₁ hd h₁ _ => ?_
  refine (called hA hs h (.extended hd)).bind fun ancestors m₂ ha h₂ family => ?_
  have defined := (define_frame name .null false).ok hd
  have evaluated := (perform_frame depth (.superclass superclass)).ok ha
  have later : m.extent.Later m₂.extent := trans_of Extent.Later ((define_grows _ _ _ _).ok hd)
    ((perform_grows _ _ (.superclass superclass)).ok ha)
  have current : m₂.current = m.current := evaluated.current.trans defined.current
  have counted : A.Holds { m₂ with nextIdentity := m₂.nextIdentity + 1 } := h₂.counted hA
  have declared : A.Knows { m₂.extent with identities := m₂.nextIdentity + 1 }
      (.classRef ⟨⟨m₂.nextIdentity, name.lexeme, .ofDeclarations m₂.current methods,
        .ofDeclarations m₂.current statics⟩, ancestors⟩) := by
    rw [current]
    exact hA.declared h later family.1 family.2
  refine onScopes_ends ?_
  rw [Scopes.assign_eq]
  split
  · exact counted.assignIn hA declared
  · exact counted

end Tasks

/-- A lawful account stays in force whatever a machine is made to do. -/
theorem Lawful.sound (hA : A.Lawful) (depth : Nat) : A.Sound depth := by
  induction depth with
  | zero =>
    intro t m h
    cases t <;> exact h.holds
  | succ depth hs =>
    intro t m h
    cases t with
    | expr e => exact evaluate_ends hA hs h
    | exprs es =>
      cases es with
      | nil => exact .pure h.holds nofun
      | cons e es =>
        refine (called hA hs h .first).bind fun v m₁ he _ known => ?_
        refine (called hA hs h (.others he)).bind fun vs m₂ hr h₂ all => ?_
        have later := (perform_grows _ _ (.exprs es)).ok hr
        exact .pure h₂ (List.forall_mem_cons.mpr ⟨hA.mono later known, all⟩)
    | option e =>
      cases e with
      | none => exact .pure h.holds trivial
      | some e => exact called hA hs h .present
    | superclass e =>
      cases e with
      | none => exact .pure h.holds ⟨hA.noClass, by simp⟩
      | some e =>
        refine (called hA hs h .ancestor).bind fun v m₁ _ h₁ known => ?_
        cases v with
        | classRef c => exact .pure h₁ ⟨known, by simp [Class.chain]⟩
        | null | bool | number | string | function | object => exact h₁
    | apply callee arguments => exact apply_ends hA hs h
    | invoke code arguments => exact invoke_ends hA hs h
    | stmt s => exact execute_ends hA hs h
    | stmts ss =>
      cases ss with
      | nil => exact .pure h.holds trivial
      | cons s ss =>
        refine (called hA hs h .statement).bind fun signal m₁ hx h₁ known => ?_
        cases signal with
        | normal => exact called hA hs h (.rest hx)
        | returned value => exact .pure h₁ known
    | declareClass name superclass methods statics => exact declareClass_ends hA hs h

/-- A machine that has run nothing has nothing in reach. -/
theorem fresh_holds (A : Account) (sink : Sink) : A.Holds (fresh sink) := by
  have parent (id parent : ScopeId) (h : (fresh sink).scopes.parent? id = some parent) :
      parent < id := by
    match id, h with
    | 1, h =>
      cases h
      exact Nat.zero_lt_one
  have unbound (id : ScopeId) (x : String) : (fresh sink).scopes.binding? id x = none := by
    match id with
    | 0 | 1 | _ + 2 => rfl
  have distinct (id : ScopeId) (scope : Scope) (h : (fresh sink).scopes.scope? id = some scope) :
      scope.Distinct := by
    match id, h with
    | 0, h | 1, h =>
      cases h
      exact List.nodup_nil
  have inside : topLevel < 2 := Nat.lt_succ_self 1
  refine ⟨inside, ⟨parent, distinct⟩, fun id x b h => ?_, nofun⟩
  cases (unbound id x).symm.trans h

/-- What comes about in a run is in order if the start is. -/
theorem InOrder.run (hA : A.Lawful) {first now : Moment} (h : A.InOrder first)
    (hc : Relation.ReflTransGen Calls first now) : A.InOrder now := by
  induction hc with
  | refl => exact h
  | tail _ hc ih => exact ih.calls hA (hA.sound _) hc

/-- A method is looked up from a class of which the account knows all. -/
theorem InOrder.family (hA : A.Lawful) {now : Moment} (h : A.InOrder now) {before : Machine}
    {c : Class} {receiver : Value} {name : String} (hb : Binds now before c receiver name) :
    A.family before.extent c.chain := by
  cases hb with
  | ofObject ho => exact ((hA.sound _).done (h.call hA .propertyObject h.holds trivial) ho).2
  | ofClass ho => exact ((hA.sound _).done (h.call hA .propertyObject h.holds trivial) ho).2
  | construction ho =>
    cases ho
    exact h.given.1
  | @inherited _ _ id keyword _ _ _ hs _ =>
    have known := lookup_ends h.holds id "super" keyword.line
    rw [hs] at known
    exact known.2

end Account

end Machine

end ClassScript
