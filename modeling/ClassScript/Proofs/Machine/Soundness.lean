import ClassScript.Proofs.Machine.Standing

/-! Runs of accepted programs. A task that starts on a tidy machine, at a place where the walk finds
what is to be done, leaves the machine tidy; so do the tasks it calls, which all start at such
places. -/
namespace ClassScript

open Scoping (Names Found Reached Fragment Analyzed routineNames declaring receiverNames
    receiverWords)

namespace Machine

variable {program : List Stmt} {r : Resolution} {layout : List (List String)} {m m' : Machine}

/-- A value that is returned is in order. -/
def SignalOk (program : List Stmt) (w : World) : Signal → Prop
  | .normal => True
  | .returned value => ValueOk program w value

namespace Task

/-- What a task may rely on. -/
def Ready (program : List Stmt) (layout : List (List String)) (m : Machine) : Task → Prop
  | expr e => At program layout m (.expr e)
  | exprs es => At program layout m (.exprs es)
  | option e | superclass e => ∀ x ∈ e, At program layout m (.expr x)
  | apply callee arguments => ValueOk program (world layout m) callee ∧
    (∀ v ∈ arguments, ValueOk program (world layout m) v) ∧
      ∀ name arity, callee.callable? = some (name, arity) → arguments.length = arity
  | invoke code arguments => ClosureOk program (world layout m) code ∧
    (∀ v ∈ arguments, ValueOk program (world layout m) v) ∧ arguments.length = code.arity
  | stmt s => At program layout m (.stmt s)
  | stmts ss => At program layout m (.stmts ss)
  | declareClass name extended methods statics =>
    At program layout m (.stmt (.classDecl name extended methods statics))

/-- What a task has done when it ends without an error. -/
def Done (program : List Stmt) (layout : List (List String)) (m : Machine) :
    (t : Task) → t.Result → Prop
  | expr _, v => ValueOk program (world layout m) v
  | option _, v => ValueOk program (world layout m) v
  | apply _ _, v => ValueOk program (world layout m) v
  | invoke _ _, v => ValueOk program (world layout m) v
  | exprs _, vs => ∀ v ∈ vs, ValueOk program (world layout m) v
  | superclass e, ancestors => ChainOk program (world layout m) ancestors ∧
    ancestry ancestors = Scoping.classKind e
  | stmt s, signal => SignalOk program (world layout m) signal ∧ (signal = .normal →
    ∀ x ∈ s.declared, (m.scopes.binding? m.current x).isSome)
  | stmts _, signal => SignalOk program (world layout m) signal
  | declareClass name _ _ _, _ => (m.scopes.binding? m.current name.lexeme).isSome

/-- A statement that declares nothing is done when its signal is in order. -/
theorem Done.of_signal {s : Stmt} {signal : Signal} (hd : s.declared = [])
    (hsig : SignalOk program (world layout m) signal) : (stmt s).Done program layout m signal :=
  ⟨hsig, fun _ => by simp [hd]⟩

/-- A declaration is done when its name is bound. -/
theorem Done.of_bound {s : Stmt} {name : String} (hd : s.declared = [name])
    (hb : (m.scopes.binding? m.current name).isSome) : (stmt s).Done program layout m .normal :=
  ⟨trivial, fun _ => by simpa [hd] using hb⟩

end Task

/-- Tasks of this depth that end without an error do what they should. -/
def Sound (program : List Stmt) (r : Resolution) (depth : Nat) : Prop :=
  ∀ (t : Task) (layout : List (List String)) (m m' : Machine) (v : t.Result),
    Tidy program r layout m → t.Ready program layout m → perform depth t m = .ok v m' →
      Reaches program r layout m m' fun layout' => t.Done program layout' m' v

section Sequence

variable {depth : Nat} {declared : List (List String)} {scopes : List Names}

/-- After an expression the machine stands where it stood. -/
theorem after_expr (hs : Sound program r depth) {e : Expr} {v : Value}
    (ht : Tidy program r layout m) (hst : Standing layout m declared scopes)
    (hf : Found program (.expr e) declared scopes) (he : evaluate depth e m = .ok v m') :
    Reaches program r layout m m' fun layout' =>
      ValueOk program (world layout' m') v ∧ Standing layout' m' declared scopes := by
  obtain ⟨layout', hg, ht', hv⟩ := hs (.expr e) layout m m' v ht ⟨declared, scopes, hf, hst⟩ he
  have hu : Unchanged m m' := Frame.unchanged ((perform_frame depth (.expr e)).ok he)
  exact ⟨layout', hg, ht', hv, hst.unchanged ht hu hg⟩

/-- After a statement it stands where the walk has gone on to. -/
theorem after_stmt (hs : Sound program r depth) {s : Stmt} (ht : Tidy program r layout m)
    (hst : Standing layout m declared scopes) (hf : Found program (.stmt s) declared scopes)
    (he : execute depth s m = .ok .normal m') :
    Reaches program r layout m m' fun layout' =>
      Standing layout' m' declared (s.declared.foldl declaring scopes) := by
  obtain ⟨layout', hg, ht', -, hb⟩ :=
    hs (.stmt s) layout m m' .normal ht ⟨declared, scopes, hf, hst⟩ he
  have hfr : Frame s.declared m m' := (perform_frame depth (.stmt s)).ok he
  exact ⟨layout', hg, ht', hst.declared_all ht hfr hg (hb rfl)⟩

/-- After a declaration its name is known. -/
theorem after_define {name : Token} {v : Value} {constant : Bool} {u : Unit}
    (ht : Tidy program r layout m) (hst : Standing layout m declared scopes)
    (hfr : Found.Fresh name declared scopes) (hd : define name v constant m = .ok u m')
    (hv : Standing layout m' declared (declaring scopes name.lexeme) →
      ValueOk program (world layout m') v) :
    Reaches program r layout m m' fun layout' =>
      Standing layout' m' declared (declaring scopes name.lexeme) ∧
        (m'.scopes.binding? m'.current name.lexeme).isSome := by
  have hframe := (define_frame name v constant).ok hd
  have bound := define_bound (hst.lt_size ht) hd
  have all : ∀ x ∈ [name.lexeme], (m'.scopes.binding? m'.current x).isSome := by
    simpa using bound
  have standing : Standing layout m' declared (declaring scopes name.lexeme) :=
    hst.declared_all ht hframe hframe.grows all
  exact ⟨layout, hframe.grows, define_upkeep ht hd (hst.lt_size ht) (hst.laid hfr.covered)
    hfr.isName (hv standing), standing, bound⟩

/-- After an expression it stands at what the walk finds behind it. -/
theorem At.behind (hs : Sound program r depth) {f g : Fragment} {e : Expr} {v : Value}
    (ht : Tidy program r layout m) (ha : At program layout m f)
    (hp : ∀ {context declared scopes}, Reached program context f declared scopes →
      Reached program context (.expr e) declared scopes ∧ Reached program context g declared scopes)
    (he : evaluate depth e m = .ok v m') :
    Reaches program r layout m m' fun layout' => At program layout' m' g := by
  obtain ⟨declared, scopes, hf, hst⟩ := ha
  have first : Found program (.expr e) declared scopes := hf.part fun hr => (hp hr).1
  refine (after_expr hs ht hst first he).trans fun layout' _ ht' hv => ?_
  exact .here ht' ⟨declared, scopes, hf.part fun hr => (hp hr).2, hv.2⟩

end Sequence

/-- The body of a routine starts in a new scope that has the arguments. -/
theorem body_ready (h : Analyzed program r) {code : Closure} {arguments : List Value}
    {scope : ScopeId} {m₁ m₂ : Machine} {u : Unit} (ht : Tidy program r layout m)
    (hr : (Task.invoke code arguments).Ready program layout m)
    (ho : openScope code.scope [] m = .ok scope m₁)
    (hb : bindArguments scope code.declaration.params arguments m₁ = .ok u m₂) :
    Reaches program r layout m { m₂ with current := scope } fun layout' =>
      (Task.stmts code.declaration.body).Ready program layout' { m₂ with current := scope } := by
  obtain ⟨⟨declared, scopes, hf, hm⟩, hargs, hlen⟩ := hr
  obtain ⟨hnames, hbody⟩ := hf.routine h
  have opens : Tidy.Opens program layout m [] (routineNames code.declaration) := .nil
  have op := ht.opened (ht.lt_size hm) opens ho
  have tidy₁ : Tidy program r (layout ++ [routineNames code.declaration])
      { m₁ with current := scope } := op.tidy.same rfl rfl rfl
  have kept := (bindArguments_keeps scope code.declaration.params arguments).ok hb
  obtain ⟨tidy₂, bound⟩ := bindArguments_upkeep op.tidy op.laid
    (fun p hp => ⟨hnames p hp, List.mem_append_left _ (List.mem_map_of_mem hp)⟩)
    (fun v hv => (hargs v hv).mono op.grows) hlen hb
  have hframe : Frame (code.declaration.params.map Token.lexeme) { m₁ with current := scope }
      { m₂ with current := scope } := ⟨rfl, kept.resolution, kept.steady⟩
  refine ⟨_, op.grows.trans kept.grows, tidy₂.same rfl rfl rfl, _, _, hbody, ?_⟩
  refine (Standing.opened op hm).declared_all tidy₁ hframe kept.grows ?_
  simpa using bound

/-- A constructor is called with the arguments of the class. -/
theorem construct_ready {c : Class} {arguments : List Value} {object : Value} {found : FoundMethod}
    {code : Closure} {m₁ m₂ : Machine} (ht : Tidy program r layout m)
    (hr : (Task.apply (.classRef c) arguments).Ready program layout m)
    (ho : newObject c m = .ok object m₁) (hf : c.constructor? = some found)
    (hb : bind found object m₁ = .ok code m₂) :
    Reaches program r layout m m₂ fun layout' =>
      (Task.invoke code arguments).Ready program layout' m₂ := by
  obtain ⟨hv, hargs, hlen⟩ := hr
  cases ho
  have object : ValueOk program (world layout m) (.object m.objects.all.size c) := hv
  obtain ⟨hd, hcode⟩ := bind_upkeep ht.newObject (findMethod?_found hv hf) object hb
  obtain ⟨layout', hg, ht', hc⟩ := hcode
  refine ⟨layout', hg, ht', hc, fun v hm => (hargs v hm).mono hg, hlen c.name _ ?_⟩
  simp [Value.callable?, Class.arity, hf, Closure.arity, hd]

/-- A task is called at a place where the walk finds it. -/
theorem ready_of_calls (h : Analyzed program r) {now next : Moment}
    (hs : Sound program r next.depth) (hc : Calls now next)
    (ht : Tidy program r layout now.machine) (hr : now.task.Ready program layout now.machine) :
    Reaches program r layout now.machine next.machine fun layout' =>
      next.task.Ready program layout' next.machine := by
  cases hc with
  | group => exact .here ht (At.part hr .group)
  | assigned => exact .here ht (At.part hr .assign)
  | operand => exact .here ht (At.part hr .unary)
  | binaryLeft => exact .here ht (At.part hr fun hf => (hf.binary h).1)
  | binaryRight hl => exact At.behind hs ht hr (·.binary h) hl
  | logicalLeft => exact .here ht (At.part hr fun hf => (hf.logical h).1)
  | logicalRight hl => exact At.behind hs ht hr (·.logical h) hl
  | callee => exact .here ht (At.part hr fun hf => (hf.call h).1)
  | arguments hc => exact At.behind hs ht hr (·.call h) hc
  | applied hc hcall ha hn =>
    obtain ⟨declared, scopes, hf, hst⟩ := hr
    have callee := hf.part fun hr => (hr.call h).1
    have arguments := hf.part fun hr => (hr.call h).2
    refine (after_expr hs ht hst callee hc).trans fun layout₁ _ ht₁ hv => ?_
    refine (hs (.exprs _) layout₁ _ _ _ ht₁ ⟨_, _, arguments, hv.2⟩ ha).trans ?_
    intro layout₂ hg ht₂ hvs
    refine .here ht₂ ⟨?_, hvs, ?_⟩
    · exact hv.1.mono hg
    · intro name arity hcall'
      cases hcall.symm.trans hcall'
      exact hn
  | propertyObject => exact .here ht (At.part hr .property)
  | setObject => exact .here ht (At.part hr fun hf => (hf.setProperty h).2)
  | setValue ho => exact At.behind hs ht hr (fun hf => (hf.setProperty h).symm) ho
  | first => exact .here ht (At.part hr fun hf => (hf.exprs h).1)
  | others he => exact At.behind hs ht hr (·.exprs h) he
  | construct ho hf hb => exact construct_ready ht hr ho hf hb
  | function =>
    obtain ⟨hv, hargs, hlen⟩ := hr
    exact .here ht ⟨hv, hargs, hlen _ _ rfl⟩
  | body ho hb => exact body_ready h ht hr ho hb
  | expression => exact .here ht (At.part hr .expr)
  | printed => exact .here ht (At.part hr .print)
  | letInitializer =>
    obtain ⟨declared, scopes, hf, hst⟩ := hr
    obtain ⟨hfr, hi⟩ := hf.letDecl h
    exact .here ht fun e he => ⟨_, _, hi e he, hst.reading hfr.unknown⟩
  | constInitializer =>
    obtain ⟨declared, scopes, hf, hst⟩ := hr
    obtain ⟨hfr, hi⟩ := hf.constDecl h
    exact .here ht ⟨_, _, hi, hst.reading hfr.unknown⟩
  | @block _ m _ body _ ho =>
    obtain ⟨declared, scopes, hf, hst⟩ := hr
    have opens : Tidy.Opens program layout m [] (Stmt.declaredAll body) := .nil
    have op := ht.opened (hst.lt_size ht) opens ho
    exact ⟨_, op.grows, op.tidy.same rfl rfl rfl, _, _, hf.part .block, .opened op hst.mirrors⟩
  | condition => exact .here ht (At.part hr fun hf => (hf.cond h).1)
  | thenBranch hc => exact At.behind hs ht hr (fun hf => ⟨(hf.cond h).1, (hf.cond h).2.1⟩) hc
  | elseBranch hc =>
    exact At.behind hs ht hr (fun hf => ⟨(hf.cond h).1, (hf.cond h).2.2.1 _ rfl⟩) hc
  | loopCondition => exact .here ht (At.part hr fun hf => (hf.loop h).1)
  | loopBody hc => exact At.behind hs ht hr (fun hf => ⟨(hf.loop h).1, (hf.loop h).2.1⟩) hc
  | again hc htrue hb =>
    have none := At.body_declared h hr
    refine (At.behind hs ht hr (fun hf => ⟨(hf.loop h).1, hf⟩) hc).trans fun layout₁ _ ht₁ hr₁ => ?_
    obtain ⟨declared, scopes, hf, hst⟩ := hr₁
    have body := hf.part fun hr => (hr.loop h).2.1
    refine (after_stmt hs ht₁ hst body hb).trans fun layout₂ _ ht₂ hst₂ => ?_
    rw [none] at hst₂
    exact .here ht₂ ⟨_, _, hf, hst₂⟩
  | returned => exact .here ht fun e he => At.part hr (·.ret h e he)
  | classDecl => exact .here ht hr
  | statement => exact .here ht (At.part hr fun hf => (hf.stmts h).1)
  | rest he =>
    obtain ⟨declared, scopes, hf, hst⟩ := hr
    have first := hf.part fun hr => (hr.stmts h).1
    refine (after_stmt hs ht hst first he).trans fun layout' _ ht' hst' => ?_
    exact .here ht' ⟨_, _, hf.part fun hr => (hr.stmts h).2, hst'⟩
  | present => exact .here ht (hr _ rfl)
  | extended hd =>
    obtain ⟨declared, scopes, hf, hst⟩ := hr
    obtain ⟨hfr, hsuper, -⟩ := hf.classDecl h
    refine (after_define ht hst hfr hd fun _ => trivial).trans fun layout' _ ht' hst' => ?_
    exact .here ht' fun e he => ⟨_, _, hsuper e he, hst'.1⟩
  | ancestor => exact .here ht (hr _ rfl)

/-- What is done in another scope is as good in the scope that the machine comes back to. -/
theorem within_done {α : Type} {steps : Run α} {scope : ScopeId} {v : α} {m₁ : Machine}
    (post : List (List String) → World → Prop)
    (hd : ∀ m₂, steps { m₁ with current := scope } = .ok v m₂ →
      Reaches program r layout m m₂ fun layout' => post layout' (world layout' m₂))
    (hw : within scope steps m₁ = .ok v m') :
    Reaches program r layout m m' fun layout' => post layout' (world layout' m') := by
  simp only [within] at hw
  split at hw
  · rename_i m₂ hm
    cases hw
    obtain ⟨layout', hg, ht, hp⟩ := hd m₂ hm
    exact ⟨layout', hg, ht.same rfl rfl rfl, hp⟩
  · cases hw

/-- The methods of a class are made in the scope that it is declared in. -/
theorem class_valueOk {superclass : Option Expr} {methods statics : List FunctionDecl}
    {declared : List (List String)} {scopes : List Names} {id : Nat} {name : String} {w : World}
    {scope : ScopeId} {ancestors : List ClassBody}
    (hf : ∀ d ∈ methods ++ statics, Found program (.routine d)
      (receiverWords (Scoping.classKind superclass) :: declared)
      (receiverNames (Scoping.classKind superclass) :: scopes))
    (hm : Mirrors w declared scopes scope) (hc : ChainOk program w ancestors)
    (hk : ancestry ancestors = Scoping.classKind superclass) :
    ValueOk program w (.classRef ⟨⟨id, name, .ofDeclarations scope methods,
      .ofDeclarations scope statics⟩, ancestors⟩) := by
  refine ⟨?_, hc⟩
  intro entry he
  have made : ∃ d ∈ methods ++ statics, entry.2 = ⟨d, scope⟩ := by
    rcases List.mem_append.mp he with he | he <;>
      obtain ⟨d, hd, rfl⟩ := List.mem_map.mp (List.mem_reverse.mp he)
    · exact ⟨d, List.mem_append_left _ hd, rfl⟩
    · exact ⟨d, List.mem_append_right _ hd, rfl⟩
  obtain ⟨d, hd, made⟩ := made
  rw [made, hk]
  exact ⟨declared, scopes, hf d hd, hm⟩

/-- A declaration of a value has its name bound when it ends. -/
theorem declaration_done {depth : Nat} (hs : Sound program r depth) {name : Token} {v : Value}
    {constant : Bool} {u : Unit} {declared : List (List String)} {scopes : List Names} {t : Task}
    {x : t.Result} {m₁ : Machine} (ht : Tidy program r layout m)
    (hst : Standing layout m declared scopes) (hfr : Found.Fresh name declared scopes)
    (hn : t.declares = [])
    (hr : t.Ready program layout m) (hp : perform depth t m = .ok x m₁)
    (hv : ∀ layout', t.Done program layout' m₁ x → ValueOk program (world layout' m₁) v)
    (hd : define name v constant m₁ = .ok u m') :
    Reaches program r layout m m' fun _ =>
      (m'.scopes.binding? m'.current name.lexeme).isSome := by
  obtain ⟨layout₁, hg, ht₁, hdone⟩ := hs t layout m m₁ x ht hr hp
  have hu : Unchanged m m₁ := Frame.unchanged (hn ▸ (perform_frame depth t).ok hp)
  have grows : (world layout₁ m₁).Grows (world layout₁ m') :=
    ((define_frame name v constant).ok hd).grows
  obtain ⟨layout₂, hg₂, ht₂, -, bound⟩ := after_define ht₁ (hst.unchanged ht hu hg) hfr hd
    fun _ => (hv layout₁ hdone).mono grows
  exact ⟨layout₂, hg.trans hg₂, ht₂, bound⟩

section Tasks

variable {depth : Nat} (h : Analyzed program r) (hs : Sound program r depth)

include h hs

/-- A task that is called ends as it should. -/
theorem call_done {t t' : Task} {m₁ : Machine} {v : t'.Result}
    (hc : Calls ⟨depth + 1, t, m⟩ ⟨depth, t', m₁⟩) (ht : Tidy program r layout m)
    (hr : t.Ready program layout m) (hp : perform depth t' m₁ = .ok v m') :
    Reaches program r layout m m' fun layout' => t'.Done program layout' m' v :=
  (ready_of_calls h hs hc ht hr).trans fun layout' _ ht' hr' => hs t' layout' m₁ m' v ht' hr' hp

theorem evaluate_sound {e : Expr} {v : Value} (ht : Tidy program r layout m)
    (hr : (Task.expr e).Ready program layout m) (he : evaluate (depth + 1) e m = .ok v m') :
    Reaches program r layout m m' fun layout' => ValueOk program (world layout' m') v := by
  cases e with
  | literal value =>
    cases he
    exact .here ht (.of_plain (ofLiteral_plain value))
  | group inner => exact call_done h hs .group ht hr he
  | var id name =>
    obtain ⟨rfl, hv⟩ := lookup_upkeep ht he
    exact .here ht hv
  | assign id name value =>
    obtain ⟨v₁, m₁, hv, he⟩ := bind_ok.mp he
    obtain ⟨_, m₂, ha, he⟩ := bind_ok.mp he
    cases he
    refine (call_done h hs .assigned ht hr hv).trans fun layout' _ ht' hv' => ?_
    have grows : (world layout' m₁).Grows (world layout' m') :=
      ((assign_unchanged id name v).ok ha).grows
    exact ⟨layout', grows, assign_upkeep ht' ha hv', ValueOk.mono grows hv'⟩
  | unary operator operand =>
    obtain ⟨v₁, m₁, hv, he⟩ := bind_ok.mp he
    obtain ⟨rfl, hx⟩ := ofExcept_ok he
    refine (call_done h hs .operand ht hr hv).trans fun layout' _ ht' _ => ?_
    exact .here ht' (.of_plain (applyUnary_plain hx))
  | binary left operator right =>
    rw [evaluate] at he
    split at he
    · obtain ⟨v₁, m₁, hl, he⟩ := bind_ok.mp he
      split at he
      · rename_i hnull
        exact call_done h hs (.binaryRight hl fun _ => hnull) ht hr he
      · cases he
        exact call_done h hs .binaryLeft ht hr hl
    · rename_i hc
      obtain ⟨v₁, m₁, hl, he⟩ := bind_ok.mp he
      obtain ⟨v₂, m₂, hrt, he⟩ := bind_ok.mp he
      obtain ⟨rfl, hx⟩ := ofExcept_ok he
      refine (call_done h hs (.binaryRight hl fun h => absurd h hc) ht hr hrt).trans ?_
      exact fun layout' _ ht' _ => .here ht' (.of_plain (applyBinary_plain hx))
  | logical left operator right =>
    obtain ⟨v₁, m₁, hl, he⟩ := bind_ok.mp he
    cases hset : settles operator v₁ with
    | true =>
      simp only [hset, if_true] at he
      cases he
      exact call_done h hs .logicalLeft ht hr hl
    | false =>
      simp only [hset, Bool.false_eq_true, if_false] at he
      exact call_done h hs (.logicalRight hl hset) ht hr he
  | call callee paren arguments =>
    obtain ⟨v₁, m₁, hc, he⟩ := bind_ok.mp he
    cases hcall : v₁.callable? with
    | none =>
      simp only [hcall] at he
      cases he
    | some signature =>
      obtain ⟨name, arity⟩ := signature
      simp only [hcall] at he
      obtain ⟨vs, m₂, ha, he⟩ := bind_ok.mp he
      split at he
      · cases he
      · rename_i hn
        exact call_done h hs (.applied hc hcall ha (by simpa using hn)) ht hr he
  | property object name =>
    obtain ⟨v₁, m₁, ho, he⟩ := bind_ok.mp he
    refine (call_done h hs .propertyObject ht hr ho).trans fun layout' _ ht' hv => ?_
    exact property_upkeep ht' hv he
  | setProperty object name value =>
    obtain ⟨v₁, m₁, ho, he⟩ := bind_ok.mp he
    cases v₁ with
    | object id c =>
      obtain ⟨v₂, m₂, hv, he⟩ := bind_ok.mp he
      obtain ⟨_, m₃, hset, he⟩ := bind_ok.mp he
      cases he
      refine (call_done h hs (.setValue ho) ht hr hv).trans fun layout' _ ht' hv' => ?_
      cases hset
      exact ⟨layout', .refl _, ht'.setField hv', hv'⟩
    | null | bool | number | string | function | classRef => cases he
  | thisRef id keyword =>
    obtain ⟨rfl, hv⟩ := lookup_upkeep ht he
    exact .here ht hv
  | superMethod id keyword method => exact superMember_upkeep ht he

theorem invoke_sound {code : Closure} {arguments : List Value} {v : Value}
    (ht : Tidy program r layout m) (hr : (Task.invoke code arguments).Ready program layout m)
    (he : invoke (depth + 1) code arguments m = .ok v m') :
    Reaches program r layout m m' fun layout' => ValueOk program (world layout' m') v := by
  obtain ⟨scope, m₁, ho, he⟩ := bind_ok.mp he
  obtain ⟨u, m₂, hb, he⟩ := bind_ok.mp he
  obtain ⟨signal, m₃, hw, he⟩ := bind_ok.mp he
  have body := within_done (fun _ w => SignalOk program w signal)
    (fun m₂ hm => call_done h hs (.body ho hb) ht hr hm) hw
  obtain ⟨layout', hg, ht', hsig⟩ := body
  cases signal with
  | normal =>
    cases he
    exact ⟨layout', hg, ht', trivial⟩
  | returned value =>
    cases he
    exact ⟨layout', hg, ht', hsig⟩

theorem apply_sound {callee : Value} {arguments : List Value} {v : Value}
    (ht : Tidy program r layout m) (hr : (Task.apply callee arguments).Ready program layout m)
    (he : apply (depth + 1) callee arguments m = .ok v m') :
    Reaches program r layout m m' fun layout' => ValueOk program (world layout' m') v := by
  cases callee with
  | function id code => exact call_done h hs .function ht hr he
  | classRef c =>
    obtain ⟨object, m₁, ho, he⟩ := bind_ok.mp he
    have made : object = .object m.objects.all.size c ∧
        m₁ = { m with objects := m.objects.push } := by
      cases ho
      exact ⟨rfl, rfl⟩
    cases hf : c.constructor? with
    | none =>
      simp only [hf] at he
      cases he
      rw [made.1, made.2]
      exact ⟨layout, .refl _, ht.newObject, hr.1⟩
    | some found =>
      simp only [hf] at he
      obtain ⟨code, m₂, hb, he⟩ := bind_ok.mp he
      obtain ⟨value, m₃, hi, he⟩ := bind_ok.mp he
      cases he
      obtain ⟨layout', hg, ht', -⟩ := call_done h hs (.construct ho hf hb) ht hr hi
      refine ⟨layout', hg, ht', ?_⟩
      rw [made.1]
      exact ChainOk.mono hg hr.1
  | null | bool | number | string | object =>
    cases he
    exact .here ht trivial

theorem superclass_sound {e : Option Expr} {ancestors : List ClassBody}
    (ht : Tidy program r layout m) (hr : (Task.superclass e).Ready program layout m)
    (he : evaluateSuperclass (depth + 1) e m = .ok ancestors m') :
    Reaches program r layout m m' fun layout' =>
      (Task.superclass e).Done program layout' m' ancestors := by
  cases e with
  | none =>
    cases he
    exact .here ht ⟨trivial, rfl⟩
  | some e =>
    obtain ⟨v, m₁, hv, he⟩ := bind_ok.mp he
    cases v with
    | classRef c =>
      cases he
      obtain ⟨layout', hg, ht', hc⟩ := call_done h hs .ancestor ht hr hv
      exact ⟨layout', hg, ht', hc, rfl⟩
    | null | bool | number | string | function | object => cases he

theorem declareClass_sound {name : Token} {superclass : Option Expr}
    {methods statics : List FunctionDecl} {u : Unit} (ht : Tidy program r layout m)
    (hr : (Task.declareClass name superclass methods statics).Ready program layout m)
    (he : declareClass (depth + 1) name superclass methods statics m = .ok u m') :
    Reaches program r layout m m' fun _ =>
      (m'.scopes.binding? m'.current name.lexeme).isSome := by
  obtain ⟨_, m₁, hd, he⟩ := bind_ok.mp he
  obtain ⟨ancestors, m₂, hsup, he⟩ := bind_ok.mp he
  rw [get_bind] at he
  obtain ⟨id, m₃, hid, he⟩ := bind_ok.mp he
  obtain ⟨declared, scopes, hf, hst⟩ := hr
  obtain ⟨hfr, hsuper, hmethods⟩ := hf.classDecl h
  -- where the methods are made, after the superclass and with the name of the class bound
  refine (after_define ht hst hfr hd fun _ => trivial).trans fun layout₁ _ ht₁ hdef => ?_
  obtain ⟨layout₂, hg₂, ht₂, hclass⟩ := hs (.superclass superclass) layout₁ m₁ m₂ ancestors ht₁
    (fun e he => ⟨_, _, hsuper e he, hdef.1⟩) hsup
  have hu : Unchanged m₁ m₂ := Frame.unchanged ((perform_frame depth (.superclass _)).ok hsup)
  have standing := hdef.1.unchanged ht₁ hu hg₂
  cases hid
  have kept : Keeps (fun _ _ => True) _ m' := (onScopes_keeps Scopes.Steady.assign).ok he
  obtain ⟨t, ha, rfl⟩ := onScopes_ok.mp he
  rw [Scopes.assign_eq] at ha
  split at ha
  · refine ⟨layout₂, hg₂.trans kept.grows, ?_, ?_⟩
    · exact Tidy.assignIn (ht₂.same rfl rfl rfl) ha
        (class_valueOk hmethods standing.mirrors hclass.1 hclass.2)
    · have bound := hdef.2
      rw [← hu.current] at bound
      exact kept.steady.bound (hu.steady.bound bound)
  · cases ha

/-- A branch ends as the statement does that is taken. -/
theorem cond_sound {condition : Expr} {thenBranch : Stmt} {elseBranch : Option Stmt}
    {signal : Signal} (ht : Tidy program r layout m)
    (hr : (Task.stmt (.cond condition thenBranch elseBranch)).Ready program layout m)
    (he : execute (depth + 1) (.cond condition thenBranch elseBranch) m = .ok signal m') :
    Reaches program r layout m m' fun layout' => SignalOk program (world layout' m') signal := by
  obtain ⟨v, m₁, hc, he⟩ := bind_ok.mp he
  cases htruth : v.truthy with
  | true =>
    simp only [htruth, if_true] at he
    obtain ⟨layout', hg, ht', hd⟩ := call_done h hs (.thenBranch hc htruth) ht hr he
    exact ⟨layout', hg, ht', hd.1⟩
  | false =>
    simp only [htruth, Bool.false_eq_true, if_false] at he
    cases elseBranch with
    | none =>
      cases he
      obtain ⟨layout', hg, ht', -⟩ := call_done h hs .condition ht hr hc
      exact ⟨layout', hg, ht', trivial⟩
    | some elseBranch =>
      obtain ⟨layout', hg, ht', hd⟩ := call_done h hs (.elseBranch hc htruth) ht hr he
      exact ⟨layout', hg, ht', hd.1⟩

/-- A loop ends when its condition fails, when its body returns or as the rest of it does. -/
theorem loop_sound {condition : Expr} {body : Stmt} {signal : Signal} (ht : Tidy program r layout m)
    (hr : (Task.stmt (.loop condition body)).Ready program layout m)
    (he : execute (depth + 1) (.loop condition body) m = .ok signal m') :
    Reaches program r layout m m' fun layout' => SignalOk program (world layout' m') signal := by
  obtain ⟨v, m₁, hc, he⟩ := bind_ok.mp he
  cases htruth : v.truthy with
  | true =>
    simp only [htruth, if_true] at he
    obtain ⟨bodySignal, m₂, hb, he⟩ := bind_ok.mp he
    cases bodySignal with
    | returned value =>
      cases he
      obtain ⟨layout', hg, ht', hd⟩ := call_done h hs (.loopBody hc htruth) ht hr hb
      exact ⟨layout', hg, ht', hd.1⟩
    | normal =>
      obtain ⟨layout', hg, ht', hd⟩ := call_done h hs (.again hc htruth hb) ht hr he
      exact ⟨layout', hg, ht', hd.1⟩
  | false =>
    simp only [htruth, Bool.false_eq_true, if_false] at he
    cases he
    obtain ⟨layout', hg, ht', -⟩ := call_done h hs .loopCondition ht hr hc
    exact ⟨layout', hg, ht', trivial⟩

omit hs in
/-- A function is made in the scope that is to bind its name. -/
theorem function_sound {d : FunctionDecl} {signal : Signal} (ht : Tidy program r layout m)
    (hr : (Task.stmt (.function d)).Ready program layout m)
    (he : execute (depth + 1) (.function d) m = .ok signal m') :
    Reaches program r layout m m' fun layout' =>
      (Task.stmt (.function d)).Done program layout' m' signal := by
  obtain ⟨declared, scopes, hf, hst⟩ := hr
  obtain ⟨hfr, hroutine⟩ := hf.function h
  rw [execute, get_bind] at he
  obtain ⟨v, m₁, hn, he⟩ := bind_ok.mp he
  obtain ⟨_, m₂, hd, he⟩ := bind_ok.mp he
  cases he
  cases hn
  have hcur := ((define_frame _ _ _).ok hd).current
  have standing (hst' : Standing layout m' declared (declaring scopes d.name.lexeme)) :
      ClosureOk program (world layout m') ⟨d, m.current⟩ :=
    ⟨_, _, hroutine, hcur ▸ hst'.mirrors⟩
  obtain ⟨layout', hg, ht', -, hb⟩ := after_define
    (m := { m with nextIdentity := m.nextIdentity + 1 }) (ht.same rfl rfl rfl)
    ⟨hst.mirrors, hst.exact⟩ hfr hd standing
  exact ⟨layout', hg, ht', .of_bound (by rw [Stmt.declared]) hb⟩

theorem execute_sound {s : Stmt} {signal : Signal} (ht : Tidy program r layout m)
    (hr : (Task.stmt s).Ready program layout m) (he : execute (depth + 1) s m = .ok signal m') :
    Reaches program r layout m m' fun layout' => (Task.stmt s).Done program layout' m' signal := by
  cases s with
  | expr e =>
    obtain ⟨v, m₁, hv, he⟩ := bind_ok.mp he
    cases he
    obtain ⟨layout', hg, ht', -⟩ := call_done h hs .expression ht hr hv
    exact ⟨layout', hg, ht', .of_signal (by rw [Stmt.declared]) trivial⟩
  | print e =>
    obtain ⟨v, m₁, hv, he⟩ := bind_ok.mp he
    obtain ⟨_, m₂, hp, he⟩ := bind_ok.mp he
    cases he
    obtain ⟨layout', hg, ht', -⟩ := call_done h hs .printed ht hr hv
    have grows : (world layout' m₁).Grows (world layout' m') :=
      ((print_unchanged v).ok hp).grows
    rw [print, get_bind] at hp
    exact ⟨layout', hg.trans grows, onSink_upkeep ht' hp,
      .of_signal (by rw [Stmt.declared]) trivial⟩
  | letDecl name initializer =>
    obtain ⟨declared, scopes, hf, hst⟩ := hr
    obtain ⟨hfr, hi⟩ := hf.letDecl h
    obtain ⟨v, m₁, hv, he⟩ := bind_ok.mp he
    obtain ⟨_, m₂, hd, he⟩ := bind_ok.mp he
    cases he
    obtain ⟨layout', hg, ht', hb⟩ := declaration_done hs ht hst hfr (t := .option initializer) rfl
      (fun e he => ⟨_, _, hi e he, hst.reading hfr.unknown⟩) hv (fun _ hdone => hdone) hd
    exact ⟨layout', hg, ht', .of_bound (by rw [Stmt.declared]) hb⟩
  | constDecl name initializer =>
    obtain ⟨declared, scopes, hf, hst⟩ := hr
    obtain ⟨hfr, hi⟩ := hf.constDecl h
    obtain ⟨v, m₁, hv, he⟩ := bind_ok.mp he
    obtain ⟨_, m₂, hd, he⟩ := bind_ok.mp he
    cases he
    obtain ⟨layout', hg, ht', hb⟩ := declaration_done hs ht hst hfr (t := .expr initializer) rfl
      ⟨_, _, hi, hst.reading hfr.unknown⟩ hv (fun _ hdone => hdone) hd
    exact ⟨layout', hg, ht', .of_bound (by rw [Stmt.declared]) hb⟩
  | block body =>
    rw [execute, get_bind] at he
    obtain ⟨scope, m₁, ho, he⟩ := bind_ok.mp he
    obtain ⟨layout', hg, ht', hsig⟩ := within_done (fun _ w => SignalOk program w signal)
      (fun m₂ hm => call_done h hs (.block ho) ht hr hm) he
    exact ⟨layout', hg, ht', .of_signal (by rw [Stmt.declared]) hsig⟩
  | cond condition thenBranch elseBranch =>
    obtain ⟨layout', hg, ht', hsig⟩ := cond_sound h hs ht hr he
    exact ⟨layout', hg, ht', .of_signal (At.cond_declared h hr) hsig⟩
  | loop condition body =>
    obtain ⟨layout', hg, ht', hsig⟩ := loop_sound h hs ht hr he
    exact ⟨layout', hg, ht', .of_signal (by rw [Stmt.declared, At.body_declared h hr]) hsig⟩
  | function d => exact function_sound h ht hr he
  | ret keyword value =>
    obtain ⟨v, m₁, hv, he⟩ := bind_ok.mp he
    cases he
    obtain ⟨layout', hg, ht', hv'⟩ := call_done h hs .returned ht hr hv
    exact ⟨layout', hg, ht', .of_signal (by rw [Stmt.declared]) hv'⟩
  | classDecl name superclass methods statics =>
    obtain ⟨_, m₁, hd, he⟩ := bind_ok.mp he
    cases he
    obtain ⟨layout', hg, ht', hb⟩ := call_done h hs .classDecl ht hr hd
    exact ⟨layout', hg, ht', .of_bound (by rw [Stmt.declared]) hb⟩

end Tasks

/-- Every task that ends without an error does what it should. -/
theorem perform_sound (h : Analyzed program r) (depth : Nat) : Sound program r depth := by
  induction depth with
  | zero =>
    intro t layout m m' v _ _ hp
    cases t <;> cases hp
  | succ depth ih =>
    intro t layout m m' v ht hr hp
    cases t with
    | expr e => exact evaluate_sound h ih ht hr hp
    | exprs es =>
      cases es with
      | nil =>
        cases hp
        exact .here ht fun _ hv => nomatch hv
      | cons e es =>
        obtain ⟨v₁, m₁, he, hp⟩ := bind_ok.mp hp
        obtain ⟨vs, m₂, hes, hp⟩ := bind_ok.mp hp
        cases hp
        obtain ⟨declared, scopes, hf, hst⟩ := hr
        have first := hf.part fun hr => (hr.exprs h).1
        have others := hf.part fun hr => (hr.exprs h).2
        obtain ⟨layout₁, hg₁, ht₁, hv, hst₁⟩ := after_expr ih ht hst first he
        obtain ⟨layout₂, hg₂, ht₂, hvs⟩ :=
          ih (.exprs es) layout₁ m₁ m' vs ht₁ ⟨_, _, others, hst₁⟩ hes
        refine ⟨layout₂, hg₁.trans hg₂, ht₂, ?_⟩
        intro x hx
        rcases List.mem_cons.mp hx with rfl | hx
        · exact hv.mono hg₂
        · exact hvs x hx
    | option e =>
      cases e with
      | none =>
        cases hp
        exact .here ht trivial
      | some e =>
        have hc : Calls ⟨depth + 1, .option (some e), m⟩ ⟨depth, .expr e, m⟩ := .present
        have done := call_done h ih hc ht hr hp
        exact done
    | superclass e => exact superclass_sound h ih ht hr hp
    | apply callee arguments => exact apply_sound h ih ht hr hp
    | invoke code arguments => exact invoke_sound h ih ht hr hp
    | stmt s => exact execute_sound h ih ht hr hp
    | stmts ss =>
      cases ss with
      | nil =>
        cases hp
        exact .here ht trivial
      | cons s ss =>
        obtain ⟨signal, m₁, hs, hp⟩ := bind_ok.mp hp
        cases signal with
        | normal =>
          have hc : Calls ⟨depth + 1, .stmts (s :: ss), m⟩ ⟨depth, .stmts ss, m₁⟩ := .rest hs
          have done := call_done h ih hc ht hr hp
          exact done
        | returned value =>
          cases hp
          obtain ⟨layout', hg, ht', hd⟩ := call_done h ih .statement ht hr hs
          exact ⟨layout', hg, ht', hd.1⟩
    | declareClass name superclass methods statics => exact declareClass_sound h ih ht hr hp

/-- A call at a moment where a task may start is another such moment. -/
theorem Calls.ready (h : Analyzed program r) {now next : Moment} (hc : Calls now next)
    (ht : Tidy program r layout now.machine) (hr : now.task.Ready program layout now.machine) :
    ∃ layout', Tidy program r layout' next.machine ∧
      next.task.Ready program layout' next.machine := by
  obtain ⟨layout', -, ht', hr'⟩ := ready_of_calls h (perform_sound h next.depth) hc ht hr
  exact ⟨layout', ht', hr'⟩

/-- A machine on which a program can start. -/
theorem fresh_tidy (sink : Sink) (r : Resolution) :
    Tidy program r [[], []] { fresh sink with resolution := r } := by
  have empty (id : ScopeId) (x : String) :
      ({ fresh sink with resolution := r } : Machine).scopes.binding? id x = none := by
    match id with
    | 0 | 1 => rfl
    | id + 2 => rfl
  refine ⟨rfl, Nat.lt_succ_self 1, rfl, ?_, ?_, ?_, ?_, ?_, rfl⟩
  · intro id parent hp
    match id with
    | 0 => cases hp
    | 1 =>
      cases hp
      exact Nat.lt_succ_self 0
    | id + 2 => cases hp
  · intro id x _ hb
    rw [empty] at hb
    cases hb
  · intro id x b hb
    rw [empty] at hb
    cases hb
  · intro id x v hv
    cases hv
  · intro id b hb
    rw [empty] at hb
    cases hb

/-- At every moment of a run the machine is tidy, and the task is one that the walk finds there. -/
theorem occurs_ready (h : Analyzed program r) (sink : Sink) {now : Moment}
    (ho : Occurs program { fresh sink with resolution := r } now) :
    ∃ layout, Tidy program r layout now.machine ∧ now.task.Ready program layout now.machine := by
  obtain ⟨depth, ho⟩ := ho
  induction ho with
  | refl =>
    refine ⟨_, fresh_tidy sink r, [], [], Found.start program, .topLevel, ?_⟩
    rintro _ ⟨⟩
  | tail _ hc ih =>
    obtain ⟨layout, ht, hr⟩ := ih
    exact hc.ready h ht hr

end Machine

end ClassScript
