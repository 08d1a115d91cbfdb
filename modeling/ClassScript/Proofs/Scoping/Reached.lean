import ClassScript.Proofs.Scoping.Visits

/-! Where the walk finds the parts of an accepted program: for each form of tree the context and the
scopes in which its parts are found, from those in which it is found itself. -/
namespace ClassScript

namespace Scoping

/-- A name that is not yet known in the innermost scope, and is one of those it declares. -/
structure Found.Fresh (name : Token) (declared : List (List String)) (scopes : List Names) :
    Prop where
  isName : name.IsName
  unknown : ∀ names ∈ scopes.head?, names.lookup name.lexeme = none
  covered : ∀ names ∈ declared.head?, name.lexeme ∈ names

/-- The walk comes to the fragment in this context and in these scopes, which declare these names in
all. -/
def Reached (program : List Stmt) (context : Context) (f : Fragment) (declared : List (List String))
    (scopes : List Names) : Prop :=
  ∃ p : Progress, p.scopes = scopes ∧ Visits program ⟨context, declared, p, f⟩

namespace Reached

variable {program : List Stmt} {r : Resolution} {context : Context} {declared : List (List String)}
  {scopes : List Names}

/-- What is known of the place where a fragment is found. -/
theorem place {f : Fragment} (h : Analyzed program r)
    (hf : Reached program context f declared scopes) :
    ∃ p, p.scopes = scopes ∧ Visits program ⟨context, declared, p, f⟩ ∧
      Place.Accepted r ⟨context, declared, p, f⟩ := by
  obtain ⟨p, rfl, hv⟩ := hf
  exact ⟨p, rfl, hv, h.accepted_of_visits hv⟩

/-- What is known of the walk of it from there. -/
theorem walks {f : Fragment} (h : Analyzed program r)
    (hf : Reached program context f declared scopes) :
    ∃ p, p.scopes = scopes ∧ Visits program ⟨context, declared, p, f⟩ ∧
      Place.Accepted r ⟨context, declared, p, f⟩ ∧ ∃ q, f.walk context p = .ok () q := by
  obtain ⟨p, hs, hv, accepted⟩ := hf.place h
  obtain ⟨q, ha⟩ := accepted.walked
  exact ⟨p, hs, hv, accepted, q, ha.walked⟩

theorem part {P Q : Place} (hv : Visits program P) (hm : Q ∈ P.parts) :
    Reached program Q.context Q.fragment Q.declared Q.progress.scopes :=
  ⟨Q.progress, rfl, hv.tail hm⟩

section Expressions

theorem group {inner : Expr}
    (hf : Reached program context (.expr (.group inner)) declared scopes) :
    Reached program context (.expr inner) declared scopes := by
  obtain ⟨p, rfl, hv⟩ := hf
  exact part hv List.mem_cons_self

theorem unary {operator : Token} {operand : Expr}
    (hf : Reached program context (.expr (.unary operator operand)) declared scopes) :
    Reached program context (.expr operand) declared scopes := by
  obtain ⟨p, rfl, hv⟩ := hf
  exact part hv List.mem_cons_self

theorem property {object : Expr} {name : Token}
    (hf : Reached program context (.expr (.property object name)) declared scopes) :
    Reached program context (.expr object) declared scopes := by
  obtain ⟨p, rfl, hv⟩ := hf
  exact part hv List.mem_cons_self

theorem assign {id : Nat} {name : Token} {value : Expr}
    (hf : Reached program context (.expr (.assign id name value)) declared scopes) :
    Reached program context (.expr value) declared scopes := by
  obtain ⟨p, rfl, hv⟩ := hf
  exact part hv List.mem_cons_self

/-- Two expressions that are walked in turn are found in the same scopes. -/
theorem pair (h : Analyzed program r) {f g : Fragment} {left : Expr} {next : Unit → Walk Unit}
    (hf : Reached program context f declared scopes)
    (hp : ∀ p, Place.parts ⟨context, declared, p, f⟩ =
      Place.first ⟨context, declared, p, f⟩ (.expr left) ::
        Place.after ⟨context, declared, p, f⟩ (walkExpr context left) g)
    (hw : f.walk context = walkExpr context left >>= next) :
    Reached program context (.expr left) declared scopes ∧
      Reached program context g declared scopes := by
  obtain ⟨p, rfl, hv, -, q, walked⟩ := hf.walks h
  rw [hw] at walked
  obtain ⟨_, m, hl, -⟩ := bind_ok.mp walked
  refine ⟨part hv (hp p ▸ List.mem_cons_self), ?_⟩
  rw [← walkExpr_scopes hl]
  exact part hv (hp p ▸ List.mem_cons_of_mem _ (Place.mem_after.mpr ⟨m, hl, rfl⟩))

theorem binary (h : Analyzed program r) {left right : Expr} {operator : Token}
    (hf : Reached program context (.expr (.binary left operator right)) declared scopes) :
    Reached program context (.expr left) declared scopes ∧
      Reached program context (.expr right) declared scopes :=
  hf.pair h (fun _ => rfl) (by rw [Fragment.walk, walkExpr])

theorem logical (h : Analyzed program r) {left right : Expr} {operator : Token}
    (hf : Reached program context (.expr (.logical left operator right)) declared scopes) :
    Reached program context (.expr left) declared scopes ∧
      Reached program context (.expr right) declared scopes :=
  hf.pair h (fun _ => rfl) (by rw [Fragment.walk, walkExpr])

theorem call (h : Analyzed program r) {callee : Expr} {paren : Token} {arguments : List Expr}
    (hf : Reached program context (.expr (.call callee paren arguments)) declared scopes) :
    Reached program context (.expr callee) declared scopes ∧
      Reached program context (.exprs arguments) declared scopes :=
  hf.pair h (fun _ => rfl) (by rw [Fragment.walk, walkExpr])

theorem setProperty (h : Analyzed program r) {object value : Expr} {name : Token}
    (hf : Reached program context (.expr (.setProperty object name value)) declared scopes) :
    Reached program context (.expr value) declared scopes ∧
      Reached program context (.expr object) declared scopes :=
  hf.pair h (fun _ => rfl) (by rw [Fragment.walk, walkExpr])

theorem exprs (h : Analyzed program r) {e : Expr} {es : List Expr}
    (hf : Reached program context (.exprs (e :: es)) declared scopes) :
    Reached program context (.expr e) declared scopes ∧
      Reached program context (.exprs es) declared scopes :=
  hf.pair h (fun _ => rfl) (by rw [Fragment.walk, walkExprs])

end Expressions

section Statements

theorem expr {e : Expr} (hf : Reached program context (.stmt (.expr e)) declared scopes) :
    Reached program context (.expr e) declared scopes := by
  obtain ⟨p, rfl, hv⟩ := hf
  exact part hv List.mem_cons_self

theorem print {e : Expr} (hf : Reached program context (.stmt (.print e)) declared scopes) :
    Reached program context (.expr e) declared scopes := by
  obtain ⟨p, rfl, hv⟩ := hf
  exact part hv List.mem_cons_self

theorem letDecl (h : Analyzed program r) {name : Token} {initializer : Option Expr}
    (hf : Reached program context (.stmt (.letDecl name initializer)) declared scopes) :
    Found.Fresh name declared scopes ∧ ∀ e ∈ initializer,
      Reached program context (.expr e) declared (marked name.lexeme false scopes) := by
  obtain ⟨p, rfl, hv, acc, q, hw⟩ := hf.walks h
  rw [Fragment.walk, walkStmt] at hw
  obtain ⟨_, m, hd, hw⟩ := bind_ok.mp hw
  obtain ⟨unknown, hm⟩ := declare_ok hd
  refine ⟨⟨?_, unknown, ?_⟩, ?_⟩
  · have := acc.proper
    rwa [Fragment.Proper, Stmt.Proper] at this
  · exact acc.covered name.lexeme (by simp [Fragment.declared, Stmt.declared])
  · intro e he
    have found := part hv (Q := ⟨context, declared, m, .expr e⟩)
      (List.mem_flatMap.mpr ⟨e, Option.mem_toList.mpr he, Place.mem_after.mpr ⟨m, hd, rfl⟩⟩)
    rwa [hm] at found

theorem constDecl (h : Analyzed program r) {name : Token} {initializer : Expr}
    (hf : Reached program context (.stmt (.constDecl name initializer)) declared scopes) :
    Found.Fresh name declared scopes ∧
      Reached program context (.expr initializer) declared (marked name.lexeme false scopes) := by
  obtain ⟨p, rfl, hv, acc, q, hw⟩ := hf.walks h
  rw [Fragment.walk, walkStmt] at hw
  obtain ⟨_, m, hd, hw⟩ := bind_ok.mp hw
  obtain ⟨unknown, hm⟩ := declare_ok hd
  refine ⟨⟨?_, unknown, ?_⟩, ?_⟩
  · have := acc.proper
    rwa [Fragment.Proper, Stmt.Proper] at this
  · exact acc.covered name.lexeme (by simp [Fragment.declared, Stmt.declared])
  · have found := part hv (Q := ⟨context, declared, m, .expr initializer⟩)
      (Place.mem_after.mpr ⟨m, hd, rfl⟩)
    rwa [hm] at found

theorem block {body : List Stmt}
    (hf : Reached program context (.stmt (.block body)) declared scopes) :
    Reached program context (.stmts body) (Stmt.declaredAll body :: declared) ([] :: scopes) := by
  obtain ⟨p, rfl, hv⟩ := hf
  exact part hv List.mem_cons_self

theorem cond (h : Analyzed program r) {condition : Expr} {thenBranch : Stmt}
    {elseBranch : Option Stmt}
    (hf : Reached program context (.stmt (.cond condition thenBranch elseBranch)) declared scopes) :
    Reached program context (.expr condition) declared scopes ∧
      Reached program context (.stmt thenBranch) declared scopes ∧
      (∀ s ∈ elseBranch, Reached program context (.stmt s) declared scopes) ∧
      (Stmt.cond condition thenBranch elseBranch).declared = [] := by
  obtain ⟨p, rfl, hv, acc, q, hw⟩ := hf.walks h
  rw [Fragment.walk, walkStmt] at hw
  obtain ⟨_, m, hc, hw⟩ := bind_ok.mp hw
  obtain ⟨_, m', ht, -⟩ := bind_ok.mp hw
  obtain ⟨-, none, helse⟩ : thenBranch.Proper ∧ thenBranch.declared = [] ∧
      Stmt.ProperElse elseBranch := by
    have := acc.proper
    rwa [Fragment.Proper, Stmt.Proper] at this
  have hm : m.scopes = p.scopes := walkExpr_scopes hc
  have hm' : m'.scopes = p.scopes := by
    rw [walkStmt_scopes thenBranch ht, none, hm]
    rfl
  refine ⟨part hv List.mem_cons_self, ?_, ?_, ?_⟩
  · rw [← hm]
    exact part hv (List.mem_cons_of_mem _ (List.mem_append_left _
      (Place.mem_after.mpr ⟨m, hc, rfl⟩)))
  · intro s hs
    rw [← hm']
    exact part hv (List.mem_cons_of_mem _ (List.mem_append_right _ (List.mem_flatMap.mpr
      ⟨s, Option.mem_toList.mpr hs, Place.mem_after.mpr ⟨m', bind_ok.mpr ⟨(), m, hc, ht⟩, rfl⟩⟩)))
  · rw [Stmt.declared, none]
    cases elseBranch with
    | none => rw [Stmt.declaredElse]; rfl
    | some s =>
      rw [Stmt.ProperElse] at helse
      rw [Stmt.declaredElse, helse.2]; rfl

theorem loop (h : Analyzed program r) {condition : Expr} {body : Stmt}
    (hf : Reached program context (.stmt (.loop condition body)) declared scopes) :
    Reached program context (.expr condition) declared scopes ∧
      Reached program context (.stmt body) declared scopes ∧
      body.declared = [] := by
  obtain ⟨p, -, -, acc⟩ := hf.place h
  have both := hf.pair h (fun _ => rfl) (by rw [Fragment.walk, walkStmt])
  have none := acc.proper
  rw [Fragment.Proper, Stmt.Proper] at none
  exact ⟨both.1, both.2, none.2⟩

theorem ret (h : Analyzed program r) {keyword : Token} {value : Option Expr}
    (hf : Reached program context (.stmt (.ret keyword value)) declared scopes) :
    ∀ e ∈ value, Reached program context (.expr e) declared scopes := by
  obtain ⟨p, rfl, hv, acc, q, hw⟩ := hf.walks h
  rw [Fragment.walk, walkStmt_ret] at hw
  obtain ⟨_, m, hc, -⟩ := bind_ok.mp hw
  intro e he
  have checked : Leads (Notes []) (checkReturn context keyword value) :=
    checkReturn_notes context keyword value
  rw [← (checked.ok hc).scopes]
  exact part hv (List.mem_flatMap.mpr ⟨e, Option.mem_toList.mpr he,
    Place.mem_after.mpr ⟨m, hc, rfl⟩⟩)

theorem function (h : Analyzed program r) {d : FunctionDecl}
    (hf : Reached program context (.stmt (.function d)) declared scopes) :
    Found.Fresh d.name declared scopes ∧
      Reached program { context with body := .function } (.routine d) declared
        (declaring scopes d.name.lexeme) := by
  obtain ⟨p, rfl, hv, acc, q, hw⟩ := hf.walks h
  rw [Fragment.walk, walkStmt] at hw
  obtain ⟨_, m, hd, hw⟩ := bind_ok.mp hw
  obtain ⟨_, m', hm, -⟩ := bind_ok.mp hw
  have heading : (declare d.name >>= fun _ => define d.name) p = .ok () m' :=
    bind_ok.mpr ⟨(), m, hd, hm⟩
  obtain ⟨unknown, rfl⟩ := declare_ok hd
  obtain rfl := define_ok hm
  refine ⟨⟨?_, unknown, ?_⟩, ?_⟩
  · obtain ⟨name, params, body⟩ := d
    have := acc.proper
    rw [Fragment.Proper, Stmt.Proper, FunctionDecl.Proper] at this
    exact this.1
  · exact acc.covered d.name.lexeme (by simp [Fragment.declared, Stmt.declared])
  · exact part hv (Place.mem_after.mpr ⟨_, heading, rfl⟩)

/-- Each method stands in a scope of its receiver. -/
theorem methods (h : Analyzed program r) {p : Progress}
    {kind : String → BodyKind} {ds : List FunctionDecl}
    (hv : Visits program ⟨context, declared, p, .methods kind ds⟩) :
    ∀ d ∈ ds, Reached program { context with body := kind d.name.lexeme } (.routine d)
      (receiverWords context.cls :: declared) (receiverNames context.cls :: p.scopes) := by
  induction ds generalizing p with
  | nil => simp
  | cons d ds ih =>
    obtain ⟨q, ha⟩ := (h.accepted_of_visits hv).walked
    have hw := ha.walked
    rw [Fragment.walk, walkMethods] at hw
    obtain ⟨_, m, hd, -⟩ := bind_ok.mp hw
    have rest : Visits program ⟨context, declared, m, .methods kind ds⟩ :=
      hv.tail (List.mem_cons_of_mem _ (Place.mem_after.mpr ⟨m, hd, rfl⟩))
    obtain ⟨m', -, rfl⟩ := inScope_ok hd
    intro d' hm
    rcases List.mem_cons.mp hm with rfl | hm
    · exact part hv List.mem_cons_self
    · exact ih rest d' hm

theorem classDecl (h : Analyzed program r) {name : Token} {superclass : Option Expr}
    {methods statics : List FunctionDecl}
    (hf : Reached program context (.stmt (.classDecl name superclass methods statics)) declared
      scopes) :
    Found.Fresh name declared scopes ∧
      (∀ e ∈ superclass, Reached program { context with cls := classKind superclass } (.expr e)
        declared (declaring scopes name.lexeme)) ∧
      (∀ d ∈ methods, Reached program ⟨methodKind d.name.lexeme, classKind superclass⟩ (.routine d)
        (receiverWords (classKind superclass) :: declared)
        (receiverNames (classKind superclass) :: declaring scopes name.lexeme)) ∧
      ∀ d ∈ statics, Reached program ⟨.method, classKind superclass⟩ (.routine d)
        (receiverWords (classKind superclass) :: declared)
        (receiverNames (classKind superclass) :: declaring scopes name.lexeme) := by
  obtain ⟨p, rfl, hv, acc, q, hw⟩ := hf.walks h
  rw [Fragment.walk, walkStmt_classDecl] at hw
  obtain ⟨_, m₃, hm, -⟩ := bind_ok.mp hw
  obtain ⟨_, m₂, he, hms⟩ := bind_ok.mp hm
  obtain ⟨_, m₁, ho, hs⟩ := bind_ok.mp he
  have h₁ : m₁.scopes = declaring p.scopes name.lexeme := openClass_scopes ho
  have h₂ : m₂.scopes = declaring p.scopes name.lexeme := (walkOption_scopes hs).trans h₁
  have h₃ : m₃.scopes = declaring p.scopes name.lexeme := (walkMethods_scopes hms).trans h₂
  refine ⟨⟨?_, ?_, ?_⟩, ?_, ?_, ?_⟩
  · have := acc.proper
    rw [Fragment.Proper, Stmt.Proper] at this
    exact this.1
  · obtain ⟨_, m, hd, -⟩ := bind_ok.mp ho
    exact (declare_ok hd).1
  · exact acc.covered name.lexeme (by simp [Fragment.declared, Stmt.declared])
  · intro e hx
    rw [← h₁]
    exact part hv (List.mem_append_left _ (List.mem_flatMap.mpr
      ⟨e, Option.mem_toList.mpr hx, Place.mem_after.mpr ⟨m₁, ho, rfl⟩⟩))
  · intro d hd
    rw [← h₂]
    exact Reached.methods h (hv.tail (List.mem_append_right _ (List.mem_append_left _
      (Place.mem_after.mpr ⟨m₂, he, rfl⟩)))) d hd
  · intro d hd
    rw [← h₃]
    exact Reached.methods h (hv.tail (List.mem_append_right _ (List.mem_append_right _
      (Place.mem_after.mpr ⟨m₃, hm, rfl⟩)))) d hd

theorem stmts (h : Analyzed program r) {s : Stmt} {ss : List Stmt}
    (hf : Reached program context (.stmts (s :: ss)) declared scopes) :
    Reached program context (.stmt s) declared scopes ∧
      Reached program context (.stmts ss) declared (s.declared.foldl declaring scopes) := by
  obtain ⟨p, rfl, hv, acc⟩ := hf.place h
  obtain ⟨q, ha⟩ := acc.walked
  have accepted := acc.part (Q := ⟨context, declared, p, .stmt s⟩) List.mem_cons_self
  obtain ⟨m, hs⟩ := accepted.walked
  have hi : isolated (walkStmt context s) p = .ok () m := by
    have := hs.walked
    rw [Fragment.walk] at this
    simp only [isolated, this]
  refine ⟨part hv List.mem_cons_self, ?_⟩
  rw [← walkStmt_scopes s hs.walked]
  exact part hv (List.mem_cons_of_mem _ (Place.mem_after.mpr ⟨m, hi, rfl⟩))

theorem routine (h : Analyzed program r) {d : FunctionDecl}
    (hf : Reached program context (.routine d) declared scopes) :
    (∀ t ∈ d.params, t.IsName) ∧ (d.params.map Token.lexeme).Nodup ∧
      Reached program context (.stmts d.body) (routineNames d :: declared)
        ((d.params.map Token.lexeme).foldl declaring ([] :: scopes)) := by
  obtain ⟨p, rfl, hv, acc, q, hw⟩ := hf.walks h
  obtain ⟨name, params, body⟩ := d
  rw [Fragment.walk, walkRoutine] at hw
  obtain ⟨q', hw, -⟩ := inScope_ok hw
  obtain ⟨_, m, hp, -⟩ := bind_ok.mp hw
  refine ⟨?_, Free.new.mp (walkParameters_free hp), ?_⟩
  · have := acc.proper
    rw [Fragment.Proper, FunctionDecl.Proper] at this
    exact this.2.1
  · rw [← walkParameters_scopes hp]
    exact part hv (Place.mem_after.mpr ⟨m, hp, rfl⟩)

end Statements

end Reached

end Scoping

end ClassScript
