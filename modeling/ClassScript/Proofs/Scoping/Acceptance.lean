import ClassScript.Proofs.Scoping.Clean

/-! The programs that scope analysis accepts are those that keep the rules of static form. -/
namespace ClassScript

open Machine (fresh)

namespace Scoping

variable {program : List Stmt} {r : Resolution} {context : Context} {around : List Enclosure}
  {declared : List (List String)} {scopes : List Names} {p : Progress}

section Accepted

namespace Reached

/-- What a statement declares is not yet known where the statement is reached. -/
theorem free_stmt (h : Analyzed program r) {s : Stmt}
    (hf : Reached program context (.stmt s) declared scopes) : Free s.declared scopes := by
  cases s with
  | letDecl name initializer =>
    rw [Stmt.declared]
    exact Free.singleton.mpr (hf.letDecl h).1.unknown
  | constDecl name initializer =>
    rw [Stmt.declared]
    exact Free.singleton.mpr (hf.constDecl h).1.unknown
  | function d =>
    rw [Stmt.declared]
    exact Free.singleton.mpr (hf.function h).1.unknown
  | classDecl name superclass methods statics =>
    rw [Stmt.declared]
    exact Free.singleton.mpr (hf.classDecl h).1.unknown
  | cond condition thenBranch elseBranch =>
    rw [(hf.cond h).2.2.2]
    exact .nil
  | loop condition body =>
    rw [Stmt.declared, (hf.loop h).2.2]
    exact .nil
  | expr | print | block | ret =>
    rw [Stmt.declared]
    exact .nil

theorem free_stmts (h : Analyzed program r) {ss : List Stmt}
    (hf : Reached program context (.stmts ss) declared scopes) :
    Free (Stmt.declaredAll ss) scopes := by
  induction ss generalizing scopes with
  | nil => exact .nil
  | cons s ss ih =>
    rw [Stmt.declaredAll_cons]
    exact Free.append.mpr ⟨(hf.stmts h).1.free_stmt h, ih (hf.stmts h).2⟩

/-- No variable that an expression reads is being defined. -/
theorem reads_defined (h : Analyzed program r) {e : Expr} {name : String}
    (hf : Reached program context (.expr e) declared scopes) (hr : e.Reads name) :
    isUndefined name scopes = false := by
  induction hr with
  | here hn =>
    obtain ⟨p, rfl, -, acc⟩ := hf.place h
    exact hn ▸ (var_accepted acc).1
  | operand he _ ih => exact ih (hf.operand h he)

/-- An initializer is reached where its name is declared and not defined. -/
theorem initializer (h : Analyzed program r) {s : Stmt} {name : Token} {e : Expr}
    (hf : Reached program context (.stmt s) declared scopes)
    (hi : s.initializer? = some (name, e)) :
    Reached program context (.expr e) declared (marked name.lexeme false scopes) := by
  cases s with
  | letDecl name initializer =>
    cases initializer with
    | none => cases hi
    | some e =>
      cases hi
      exact (hf.letDecl h).2 e rfl
  | constDecl name initializer =>
    cases hi
    exact (hf.constDecl h).2
  | expr | print | block | cond | loop | function | ret | classDecl => cases hi

end Reached

/-- What stands in the program is walked without an error, in the context of its enclosures. -/
theorem Stands.clean (h : Analyzed program r) {f : Fragment} (hs : Stands program f around)
    (hi : f.Inner) : ∃ p, Clean (f.walk (Context.of around)) p := by
  obtain ⟨context, scopes, surrounded⟩ := hs.surrounded h
  obtain ⟨p, -, -, acc⟩ := surrounded.reached.place h
  exact ⟨p, surrounded.context_eq hi ▸ acc.clean⟩

theorem Stands.checkReturn (h : Analyzed program r) {keyword : Token} {value : Option Expr}
    (hs : Stands program (.stmt (.ret keyword value)) around) :
    (Context.of around).body ≠ .none ∧
      ((Context.of around).body = .constructor → value = none) := by
  obtain ⟨p, clean⟩ := hs.clean h trivial
  rw [Fragment.walk, walkStmt_ret] at clean
  have checked : Leads (Notes []) (Scoping.checkReturn (Context.of around) keyword value) :=
    checkReturn_notes _ _ _
  exact clean_checkReturn.mp (clean.sequence (Grows.of_notes checked)
    (Grows.of_notes (walkOption_notes _ value))).1

/-- The heading of a class is walked without an error if the class is. -/
theorem clean_heading {name : Token} {superclass : Option Expr}
    {methods statics : List FunctionDecl}
    (h : Clean (walkStmt context (.classDecl name superclass methods statics)) p) :
    ∃ q, Clean (reportSelfInheritance name superclass) q := by
  rw [walkStmt_classDecl] at h
  have opened := openClass_grows name superclass
  have extended := Grows.sequence opened (Grows.of_notes (walkOption_notes
    { context with cls := classKind superclass } superclass))
  have entered := Grows.sequence extended (walkMethods_grows methodKind
    { context with cls := classKind superclass } methods)
  obtain ⟨h, -⟩ := h.sequence entered (walkMethods_grows _ _ statics)
  obtain ⟨h, -⟩ := h.sequence extended (walkMethods_grows _ _ methods)
  obtain ⟨h, -⟩ := h.sequence opened (Grows.of_notes (walkOption_notes _ superclass))
  have reported : Leads (Notes []) (reportSelfInheritance name superclass) :=
    reportSelfInheritance_notes name superclass
  have defined : Leads (Grows []) (define name) := mark_grows name.lexeme true
  have declared : Leads (Grows []) (declare name) := declare_grows name
  obtain ⟨-, q, h⟩ := h.sequence declared (Grows.sequence defined (Grows.of_notes reported))
  obtain ⟨-, q, h⟩ := h.sequence defined (Grows.of_notes reported)
  exact ⟨q, h⟩

theorem Analyzed.wellFormed (h : Analyzed program r) : WellFormed program where
  distinct hs hf := by
    obtain ⟨context, scopes, surrounded⟩ := hs.surrounded h
    obtain ⟨distinct, body⟩ := surrounded.reached.framed h hf
    obtain ⟨p, -, -, acc⟩ := body.place h
    have proper : Stmt.ProperAll _ := acc.proper
    rw [Stmt.declaredBy_eq proper]
    exact Free.new.mp (Free.append.mpr ⟨Free.new.mpr distinct, body.free_stmts h⟩)
  initializers := by
    intro s around name e hs inner hi reads
    obtain ⟨context, scopes, surrounded⟩ := hs.surrounded h
    have defined := (surrounded.reached.initializer h hi).reads_defined h reads
    cases scopes with
    | nil =>
      have known := surrounded.known
      rw [foldl_declaring_nil] at known
      cases around with
      | nil => exact inner rfl
      | cons c around => cases known
    | cons names outer => simp [marked, isUndefined] at defined
  returns hs := by
    have inside := (hs.checkReturn h).1
    rw [ne_eq, Context.of_body_eq_none] at inside
    exact Option.isSome_iff_ne_none.mpr inside
  constructors hs hr := by
    have checked := (hs.checkReturn h).2
    rw [Context.of_body_eq_constructor] at checked
    by_contra hc
    cases checked ⟨_, hr, by simpa using hc⟩
  receivers hs := by
    obtain ⟨p, clean⟩ := hs.clean h trivial
    rw [Fragment.walk, clean_thisRef, ne_eq, Context.of_cls_eq_none] at clean
    exact Option.isSome_iff_ne_none.mpr clean
  superclasses hs := by
    obtain ⟨p, clean⟩ := hs.clean h trivial
    rwa [Fragment.walk, clean_superMethod, Context.of_cls_eq_derived] at clean
  heritage := by
    intro name id extended methods statics around hs
    obtain ⟨p, clean⟩ := hs.clean h trivial
    obtain ⟨q, reported⟩ := clean_heading clean
    exact clean_reportSelfInheritance.mp reported

end Accepted

section Kept

theorem Quiet.defined (h : Quiet scopes) (name : String) : isUndefined name scopes = false := by
  cases scopes with
  | nil => rfl
  | cons names outer => simpa [isUndefined] using h.settled names List.mem_cons_self name

/-- Below the top level an initializer that does not read its name reads defined names only. -/
theorem Quiet.initializer_defined (h : Quiet scopes) {name other : String}
    (apart : scopes ≠ [] → other ≠ name) :
    isUndefined other (marked name false scopes) = false := by
  cases scopes with
  | nil => rfl
  | cons names outer =>
    rw [marked, isUndefined, lookup_cons, if_neg (apart (List.cons_ne_nil _ _))]
    exact h.defined other

section Expressions

theorem walkExprs_clean {es : List Expr}
    (each : ∀ e ∈ es, ∀ q : Progress, q.scopes = p.scopes → Clean (walkExpr context e) q) :
    Clean (walkExprs context es) p := by
  induction es generalizing p with
  | nil => exact .pure
  | cons e es ih =>
    rw [walkExprs]
    refine (each e List.mem_cons_self p rfl).bind fun m hm => ih fun e' he q hq => ?_
    exact each e' (List.mem_cons_of_mem _ he) q (hq.trans (walkExpr_scopes hm))

/-- The walk of an expression finds no error if the names that it reads are defined. -/
theorem walkExpr_clean (hw : WellFormed program) {e : Expr} (hs : Stands program (.expr e) around)
    (hc : (Fragment.expr e).Inner → context = Context.of around)
    (hd : ∀ name, e.Reads name → isUndefined name p.scopes = false) :
    Clean (walkExpr context e) p := by
  induction e using Expr.induction_on_operands generalizing p with
  | step e ih =>
    have operand e' (he : e' ∈ e.operands) (q : Progress) (hq : q.scopes = p.scopes) :
        Clean (walkExpr context e') q :=
      ih e' he (hs.operand he) (fun _ => hc (Fragment.inner_of_operand he))
        fun name hr => hq ▸ hd name (.operand he hr)
    cases e with
    | literal value => exact .pure
    | var id name => exact clean_var (hd _ (.here rfl))
    | group inner | unary operator inner | property inner name =>
      rw [walkExpr]
      exact operand inner List.mem_cons_self p rfl
    | assign id name value =>
      rw [walkExpr]
      exact (operand value List.mem_cons_self p rfl).bind fun _ _ => .resolve id name.lexeme
    | binary left operator right | logical left operator right =>
      rw [walkExpr]
      refine (operand left List.mem_cons_self p rfl).bind fun m hm => ?_
      exact operand right (List.mem_cons_of_mem _ List.mem_cons_self) m (walkExpr_scopes hm)
    | setProperty object name value =>
      rw [walkExpr]
      refine (operand value (List.mem_cons_of_mem _ List.mem_cons_self) p rfl).bind fun m hm => ?_
      exact operand object List.mem_cons_self m (walkExpr_scopes hm)
    | call callee paren arguments =>
      rw [walkExpr]
      refine (operand callee List.mem_cons_self p rfl).bind fun m hm => ?_
      refine walkExprs_clean fun e he q hq => ?_
      exact operand e (List.mem_cons_of_mem _ he) q (hq.trans (walkExpr_scopes hm))
    | thisRef id keyword =>
      rw [clean_thisRef, hc trivial, ne_eq, Context.of_cls_eq_none]
      exact Option.isSome_iff_ne_none.mp (hw.receivers hs)
    | superMethod id keyword method =>
      rw [clean_superMethod, hc trivial, Context.of_cls_eq_derived]
      exact hw.superclasses hs

end Expressions

section Statements

theorem walkParameters_clean {ps : List Token} (h : Free (ps.map Token.lexeme) p.scopes) :
    Clean (walkParameters ps) p := by
  induction ps generalizing p with
  | nil => exact .pure
  | cons t ps ih =>
    have split : Free ([t.lexeme] ++ ps.map Token.lexeme) p.scopes := h
    obtain ⟨first, rest⟩ := Free.append.mp split
    rw [walkParameters]
    refine (Clean.declare first).bind fun m hm => ?_
    obtain ⟨-, rfl⟩ := declare_ok hm
    refine (Clean.define t).bind fun m hm => ?_
    obtain rfl := define_ok hm
    exact ih rest

theorem walkStmts_clean {ss : List Stmt} (proper : Stmt.ProperAll ss) (quiet : Quiet p.scopes)
    (free : Free (Stmt.declaredAll ss) p.scopes)
    (each : ∀ s ∈ ss, ∀ q : Progress, Quiet q.scopes → Free s.declared q.scopes →
      (p.scopes = [] → q.scopes = []) → Clean (walkStmt context s) q) :
    Clean (walkStmts context ss) p := by
  induction ss generalizing p with
  | nil => exact .pure
  | cons s ss ih =>
    rw [Stmt.ProperAll] at proper
    obtain ⟨first, rest⟩ := Free.append.mp free
    rw [walkStmts]
    have clean := each s List.mem_cons_self p quiet first id
    refine clean.isolated.bind fun m hm => ?_
    obtain ⟨q, hq, -⟩ := clean
    have same : m = q := by
      simp only [isolated, hq] at hm
      cases hm
      rfl
    have scopes : m.scopes = s.declared.foldl declaring p.scopes :=
      same ▸ walkStmt_scopes s hq
    refine ih proper.2 (scopes ▸ quiet.after_stmt proper.1) (scopes ▸ rest) ?_
    intro s' hs q' quiet' free' outer
    refine each s' (List.mem_cons_of_mem _ hs) q' quiet' free' fun none => outer ?_
    rw [scopes, none, foldl_declaring_nil]

/-- The walk of a routine finds no error if that of the body does not. -/
theorem walkRoutine_clean {d : FunctionDecl} (proper : d.Proper) (distinct : (routineNames d).Nodup)
    (quiet : Quiet p.scopes)
    (body : ∀ q : Progress, Quiet q.scopes → Free (Stmt.declaredAll d.body) q.scopes →
      Clean (walkStmts context d.body) q) :
    Clean (walkRoutine context d) p := by
  obtain ⟨name, params, statements⟩ := d
  rw [FunctionDecl.Proper] at proper
  have names : Free (routineNames ⟨name, params, statements⟩) ([] :: p.scopes) :=
    Free.new.mpr distinct
  obtain ⟨free, rest⟩ := Free.append.mp names
  rw [walkRoutine]
  refine Clean.inScope ((walkParameters_clean free).bind fun m hm => ?_)
  have scopes := walkParameters_scopes hm
  refine body m ?_ (scopes ▸ rest)
  rw [scopes]
  exact (quiet.push .nil .nil).definingAll proper.2.1

theorem walkMethods_clean {kind : String → BodyKind} {ds : List FunctionDecl}
    (each : ∀ d ∈ ds, ∀ q : Progress, q.scopes = receiverNames context.cls :: p.scopes →
      Clean (walkRoutine { context with body := kind d.name.lexeme } d) q) :
    Clean (walkMethods kind context ds) p := by
  induction ds generalizing p with
  | nil => exact .pure
  | cons d ds ih =>
    rw [walkMethods]
    refine (Clean.inScope (each d List.mem_cons_self _ rfl)).bind fun m hm => ?_
    obtain ⟨m', -, rfl⟩ := inScope_ok hm
    exact ih fun d' hd => each d' (List.mem_cons_of_mem _ hd)

/-- The walk of a class finds no error if that of its heading and those of its methods do not. -/
theorem walkClass_clean {name : Token} {superclass : Option Expr}
    {methods statics : List FunctionDecl} (names : Expr.NamesClass superclass)
    (free : Free [name.lexeme] p.scopes) (quiet : Quiet (declaring p.scopes name.lexeme))
    (apart : ∀ id token, superclass = some (.var id token) → token.lexeme ≠ name.lexeme)
    (each : ∀ isStatic d,
      .method superclass isStatic d ∈ (Stmt.classDecl name superclass methods statics).frames →
        ∀ q : Progress,
          q.scopes = receiverNames (classKind superclass) :: declaring p.scopes name.lexeme →
            Clean (walkRoutine ((Frame.method superclass isStatic d).enter context) d) q) :
    Clean (walkStmt context (.classDecl name superclass methods statics)) p := by
  have heading : Clean (openClass name superclass) p := by
    refine (Clean.declare free).bind fun _ _ => (Clean.define name).bind fun _ _ => ?_
    cases superclass with
    | none => exact .pure
    | some e =>
      obtain ⟨id, token, rfl⟩ := names
      exact clean_reportSelfInheritance.mpr (apart id token rfl)
  have extended m (hm : m.scopes = declaring p.scopes name.lexeme) :
      Clean (walkOption { context with cls := classKind superclass } superclass) m := by
    cases superclass with
    | none => exact .pure
    | some e =>
      obtain ⟨id, token, rfl⟩ := names
      rw [walkOption]
      exact clean_var (hm ▸ quiet.defined token.lexeme)
  rw [walkStmt_classDecl]
  refine ((heading.bind fun m hm => extended m (openClass_scopes hm)).bind fun m₂ hm => ?_).bind
    fun m₃ hm => ?_
  · obtain ⟨_, m₁, ho, he⟩ := bind_ok.mp hm
    refine walkMethods_clean fun d hd q hq => each false d ?_ q ?_
    · exact List.mem_append_left _ (List.mem_map_of_mem hd)
    · rw [hq, walkOption_scopes he, openClass_scopes ho]
  · obtain ⟨_, m₂, hm, hi⟩ := bind_ok.mp hm
    obtain ⟨_, m₁, ho, he⟩ := bind_ok.mp hm
    refine walkMethods_clean fun d hd q hq => each true d ?_ q ?_
    · exact List.mem_append_right _ (List.mem_map_of_mem hd)
    · rw [hq, walkMethods_scopes hi, walkOption_scopes he, openClass_scopes ho]

theorem walkFunction_clean {d : FunctionDecl} (proper : d.Proper)
    (free : Free [d.name.lexeme] p.scopes) (distinct : (routineNames d).Nodup)
    (quiet : Quiet p.scopes)
    (body : ∀ q : Progress, Quiet q.scopes → Free (Stmt.declaredAll d.body) q.scopes →
      Clean (walkStmts { context with body := .function } d.body) q) :
    Clean (walkStmt context (.function d)) p := by
  rw [walkStmt]
  refine (Clean.declare free).bind fun m hm => ?_
  obtain ⟨-, rfl⟩ := declare_ok hm
  refine (Clean.define d.name).bind fun m hm => ?_
  obtain rfl := define_ok hm
  exact walkRoutine_clean proper distinct (quiet.defining proper.isName) body

theorem walkReturn_clean (hw : WellFormed program) {keyword : Token} {value : Option Expr}
    (hs : Stands program (.stmt (.ret keyword value)) around) (quiet : Quiet p.scopes)
    (expression : ∀ e ∈ value, ∀ q : Progress, Quiet q.scopes →
      Clean (walkExpr (Context.of around) e) q) :
    Clean (walkStmt (Context.of around) (.ret keyword value)) p := by
  have inside : (Context.of around).body ≠ .none := by
    rw [ne_eq, Context.of_body_eq_none]
    exact Option.isSome_iff_ne_none.mp (hw.returns hs)
  have plain : (Context.of around).body = .constructor → value = none := by
    rw [Context.of_body_eq_constructor]
    rintro ⟨frame, hr, hc⟩
    cases value with
    | none => rfl
    | some e => rw [hw.constructors hs hr] at hc; cases hc
  have checked : Leads (Notes []) (checkReturn (Context.of around) keyword value) :=
    checkReturn_notes _ _ _
  rw [walkStmt_ret]
  refine (clean_checkReturn.mpr ⟨inside, plain⟩).bind fun m hm => ?_
  cases value with
  | none => exact .pure
  | some e => exact expression e rfl m ((checked.ok hm).scopes ▸ quiet)

/-- Nothing is read in its own initializer, but at the top level. -/
theorem walkInitializer_clean (hw : WellFormed program) {s : Stmt}
    (hs : Stands program (.stmt s) around) (quiet : Quiet p.scopes)
    (outer : around = [] → p.scopes = []) {name : Token} {e : Expr}
    (hi : s.initializer? = some (name, e)) (he : e ∈ s.expressions)
    (free : Free [name.lexeme] p.scopes) :
    Clean (declare name >>= fun _ => thenDefine name (walkExpr (Context.of around) e)) p := by
  refine (Clean.declare free).bind fun m hm => ?_
  obtain ⟨-, rfl⟩ := declare_ok hm
  refine (walkExpr_clean hw (hs.expression he) (fun _ => rfl) fun other hr => ?_).thenDefine
  refine quiet.initializer_defined fun inner => ?_
  rintro rfl
  exact hw.initializers hs (fun top => inner (outer top)) hi hr

/-- The branches are walked in the scopes in which the condition is. -/
theorem walkCond_clean {condition : Expr} {thenBranch : Stmt} {elseBranch : Option Stmt}
    (none : thenBranch.declared = []) (first : Clean (walkExpr context condition) p)
    (branch : ∀ b ∈ (Stmt.cond condition thenBranch elseBranch).branches, ∀ q : Progress,
      q.scopes = p.scopes → Clean (walkStmt context b) q) :
    Clean (walkStmt context (.cond condition thenBranch elseBranch)) p := by
  rw [walkStmt]
  refine first.bind fun m hm => ?_
  have hm := walkExpr_scopes hm
  refine (branch thenBranch List.mem_cons_self m hm).bind fun m' hm' => ?_
  cases elseBranch with
  | none => exact .pure
  | some s =>
    refine branch s (List.mem_cons_of_mem _ List.mem_cons_self) m' ?_
    rw [walkStmt_scopes thenBranch hm', none, hm]
    rfl

/-- The walk of a statement finds no error if what it declares is not yet known. -/
theorem walkStmt_clean (hw : WellFormed program) {s : Stmt} (hs : Stands program (.stmt s) around)
    (proper : s.Proper) (quiet : Quiet p.scopes) (free : Free s.declared p.scopes)
    (outer : around = [] → p.scopes = []) : Clean (walkStmt (Context.of around) s) p := by
  induction s using Stmt.induction_on_parts generalizing around p with
  | step s ihb ihf =>
    have expression e (he : e ∈ s.expressions) (q : Progress) (quiet : Quiet q.scopes) :
        Clean (walkExpr (Context.of around) e) q :=
      walkExpr_clean hw (hs.expression he) (fun _ => rfl) fun name _ => quiet.defined name
    have branch b (hb : b ∈ s.branches) (q : Progress) (hq : q.scopes = p.scopes) :
        Clean (walkStmt (Context.of around) b) q :=
      ihb b hb (hs.branch hb) (proper.branch hb).1 (hq ▸ quiet) ((proper.branch hb).2 ▸ .nil)
        fun top => hq.trans (outer top)
    have body frame (hf : frame ∈ s.frames) (q : Progress) (quiet : Quiet q.scopes)
        (free : Free (Stmt.declaredAll frame.body) q.scopes) :
        Clean (walkStmts (frame.enter (Context.of around)) frame.body) q := by
      have whole := (proper.framed hf).2
      refine walkStmts_clean whole quiet free fun b hb q' quiet' free' _ => ?_
      obtain ⟨front, behind, he⟩ := List.append_of_mem hb
      exact ihf frame hf b hb (hs.inside hf he) (Stmt.properAll_iff.mp whole b hb) quiet' free'
        nofun
    have distinct frame (hf : frame ∈ s.frames) :
        (frame.parameters ++ Stmt.declaredAll frame.body).Nodup := by
      rw [← Stmt.declaredBy_eq (proper.framed hf).2]
      exact hw.distinct hs hf
    cases s with
    | expr e | print e =>
      rw [walkStmt]
      exact expression e (List.mem_singleton_self e) p quiet
    | letDecl name value =>
      rw [walkStmt]
      rw [Stmt.declared] at free
      cases value with
      | none => exact (Clean.declare free).bind fun _ _ => .thenDefine .pure
      | some e => exact walkInitializer_clean hw hs quiet outer rfl (List.mem_singleton_self e) free
    | constDecl name e =>
      rw [walkStmt]
      rw [Stmt.declared] at free
      exact walkInitializer_clean hw hs quiet outer rfl (List.mem_singleton_self e) free
    | block ss =>
      rw [walkStmt]
      refine Clean.inScope (body (.block ss) (List.mem_singleton_self _) _ ?_ ?_)
      · exact quiet.push .nil .nil
      · exact Free.new.mpr (distinct _ (List.mem_singleton_self _))
    | cond condition thenBranch elseBranch =>
      have plain := (proper.branch (s := .cond condition thenBranch elseBranch)
        List.mem_cons_self).2
      exact walkCond_clean plain (expression condition (List.mem_singleton_self _) p quiet) branch
    | loop condition b =>
      rw [walkStmt]
      refine (expression condition (List.mem_singleton_self _) p quiet).bind fun m hm => ?_
      exact branch b (List.mem_singleton_self b) m (walkExpr_scopes hm)
    | function d =>
      rw [Stmt.Proper] at proper
      rw [Stmt.declared] at free
      exact walkFunction_clean proper free (distinct (.function d) (List.mem_singleton_self _))
        quiet (body (.function d) (List.mem_singleton_self _))
    | ret keyword value =>
      refine walkReturn_clean hw hs quiet fun e he => expression e ?_
      cases he
      exact List.mem_singleton_self e
    | classDecl name superclass methods statics =>
      rw [Stmt.Proper] at proper
      rw [Stmt.declared] at free
      have inner := quiet.defining proper.1
      refine walkClass_clean proper.2.1 free inner ?_ fun isStatic d hf q hq => ?_
      · rintro id token rfl
        exact hw.heritage hs
      · have routine : d.Proper := by
          rcases List.mem_append.mp hf with hf | hf
          · obtain ⟨d, hd, ⟨⟩⟩ := List.mem_map.mp hf
            exact FunctionDecl.properAll_iff.mp proper.2.2.1 d hd
          · obtain ⟨d, hd, ⟨⟩⟩ := List.mem_map.mp hf
            exact FunctionDecl.properAll_iff.mp proper.2.2.2 d hd
        refine walkRoutine_clean routine (distinct _ hf) ?_ (body _ hf)
        rw [hq]
        exact inner.push (settled_receiverNames _) (words_receiverNames _)

end Statements

/-- What keeps the rules is accepted. -/
theorem WellFormed.accepted (hw : WellFormed program) (proper : Stmt.ProperAll program)
    (r : Resolution) : (analyze r program).1 = [] := by
  have clean : Clean (walkStmts .top program) ⟨[], [], r⟩ := by
    refine walkStmts_clean proper .nil (by simp [Free]) fun s hs q quiet free outer => ?_
    exact walkStmt_clean hw (.topLevel hs) (Stmt.properAll_iff.mp proper s hs) quiet free
      fun _ => outer rfl
  obtain ⟨q, hq, he⟩ := clean
  rw [analyze, hq]
  exact he

end Kept

variable {source : List UInt8} {sink : Sink}

/-- Scope analysis finds no error in a program that was read if and only if the program keeps the
rules of static form. -/
theorem accepted_iff_wellFormed (hp : parse source = .ok program) :
    ((fresh sink).analyze program).1 = [] ↔ WellFormed program :=
  ⟨fun ha => (Analyzed.of_source hp ha).wellFormed,
    fun hw => hw.accepted (parse_proper hp).2 .empty⟩

namespace Judged

/-- A class that extends another and uses both receivers, in a block. -/
def text : List UInt8 := Text.encode
  ("\x7b class A \x7b\x7d class B extends A \x7b m(p) \x7b " ++
    "let a = this; return super.m; \x7d \x7d \x7d")

def word (text : String) : Token := ⟨.symbol .identifier, text, 1⟩

def method : FunctionDecl := ⟨word "m", [word "p"],
  [.letDecl (word "a") (some (.thisRef 1 ⟨.symbol .thisWord, "this", 1⟩)),
    .ret ⟨.symbol .returnWord, "return", 1⟩
      (some (.superMethod 2 ⟨.symbol .superWord, "super", 1⟩ (word "m")))]⟩

def statements : List Stmt :=
  [.block [.classDecl (word "A") none [] [],
    .classDecl (word "B") (some (.var 0 (word "A"))) [method] []]]

end Judged

theorem accepted_iff_wellFormed_in_block :
    parse Judged.text = .ok Judged.statements ∧ WellFormed Judged.statements := by
  have parsed : parse Judged.text = .ok Judged.statements := by with_unfolding_all rfl
  have accepted : ((fresh .unlimited).analyze Judged.statements).1 = [] := by
    with_unfolding_all rfl
  exact ⟨parsed, (accepted_iff_wellFormed parsed).mp accepted⟩

end Scoping

end ClassScript
