import ClassScript.Proofs.Scoping.Places

/-! The places of a program that the walk accepts. Where the walk of the whole program ends without
an error, so does the walk of each part from the place where it starts, and the distances noted for
the whole are those noted for the parts. -/
namespace ClassScript

namespace Scoping

variable {r : Resolution} {is js : List Nat} {p q : Progress} {P Q : Place}

/-- The walk goes from `p` to `q` without an error, and `r` has the distances that it notes. -/
structure Accepts (r : Resolution) (is : List Nat) (w : Walk Unit) (p q : Progress) : Prop where
  walked : w p = .ok () q
  clean : q.errors = []
  distinct : is.Nodup
  fresh : ∀ i ∈ is, p.resolution.distance? i = none
  agrees : ∀ i ∈ is, r.distance? i = q.resolution.distance? i

theorem Accepts.perm {w : Walk Unit} (h : Accepts r js w p q) (hs : is.Perm js) :
    Accepts r is w p q :=
  ⟨h.walked, h.clean, hs.nodup_iff.mpr h.distinct, fun i hi => h.fresh i (hs.subset hi),
    fun i hi => h.agrees i (hs.subset hi)⟩

/-- Of two walks one after the other each is accepted if they note at different identities. -/
theorem Accepts.sequence {w v : Walk Unit} (h : Accepts r (is ++ js) (w >>= fun _ => v) p q)
    (hw : Leads (Grows is) w) (hv : Leads (Grows js) v) :
    ∃ m, Accepts r is w p m ∧ Accepts r js v m q := by
  obtain ⟨_, m, hwm, hvq⟩ := bind_ok.mp h.walked
  have gw := hw.ok hwm
  have gv := hv.ok hvq
  obtain ⟨hdi, hdj, apart⟩ := List.nodup_append.mp h.distinct
  refine ⟨m, ⟨hwm, ?_, hdi, ?_, ?_⟩, ⟨hvq, h.clean, hdj, ?_, ?_⟩⟩
  · exact List.prefix_nil.mp (h.clean ▸ gv.errors)
  · exact fun i hi => h.fresh i (List.mem_append_left _ hi)
  · intro i hi
    rw [h.agrees i (List.mem_append_left _ hi), gv.elsewhere i fun hj => apart i hi i hj rfl]
  · intro i hi
    rw [gw.elsewhere i fun hj => apart i hj i hi rfl]
    exact h.fresh i (List.mem_append_right _ hi)
  · exact fun i hi => h.agrees i (List.mem_append_right _ hi)

/-- A walk is accepted behind one that notes nothing. -/
theorem Accepts.behind {w v : Walk Unit} (h : Accepts r js (w >>= fun _ => v) p q)
    (hw : Leads (Grows []) w) (hv : Leads (Grows js) v) :
    ∃ m, Accepts r [] w p m ∧ Accepts r js v m q := by
  rw [← List.nil_append js] at h
  exact h.sequence hw hv

theorem Accepts.inScope {names : Names} {w : Walk Unit} (h : Accepts r is (inScope names w) p q) :
    ∃ m, Accepts r is w { p with scopes := names :: p.scopes } m := by
  obtain ⟨m, hw, rfl⟩ := inScope_ok h.walked
  exact ⟨m, hw, h.clean, h.distinct, h.fresh, h.agrees⟩

theorem Accepts.isolated {w : Walk Unit} (h : Accepts r is (isolated w) p q) : Accepts r is w p q :=
  ⟨isolated_ok h.walked h.clean, h.clean, h.distinct, h.fresh, h.agrees⟩

/-- No name of the scope is being read in its own initializer. -/
def Settled (names : Names) : Prop := ∀ x, names.lookup x ≠ some false

/-- What a scope holds of a receiver is defined, and `super` comes with `this`. -/
structure Words (names : Names) : Prop where
  this : names.lookup "this" ≠ some false
  super : names.lookup "super" ≠ some false
  receiver : (names.lookup "super").isSome → (names.lookup "this").isSome

/-- Scopes around an expression: only in the innermost can a name be undefined. -/
structure Orderly (scopes : List Names) : Prop where
  outer : ∀ names ∈ scopes.tail, Settled names
  words : ∀ names ∈ scopes, Words names

/-- Scopes around a statement. -/
structure Quiet (scopes : List Names) : Prop where
  settled : ∀ names ∈ scopes, Settled names
  words : ∀ names ∈ scopes, Words names

theorem Settled.nil : Settled [] := by simp [Settled]

theorem Words.nil : Words [] := by constructor <;> simp

theorem settled_receiverNames (cls : ClassKind) : Settled (receiverNames cls) := by
  intro x
  unfold receiverNames
  split <;> simp only [lookup_cons, List.lookup_nil] <;> split_ifs <;> simp

theorem words_receiverNames (cls : ClassKind) : Words (receiverNames cls) := by
  cases cls <;> exact ⟨by decide, by decide, by decide⟩

theorem Words.marked {names : Names} {name : Token} (h : Words names) (hn : name.IsName)
    (defined : Bool) : Words ((name.lexeme, defined) :: names) := by
  have ht : "this" ≠ name.lexeme := Ne.symm hn.ne_this
  have hs : "super" ≠ name.lexeme := Ne.symm hn.ne_super
  refine ⟨?_, ?_, ?_⟩
  · rw [lookup_cons, if_neg ht]
    exact h.this
  · rw [lookup_cons, if_neg hs]
    exact h.super
  · rw [lookup_cons, lookup_cons, if_neg hs, if_neg ht]
    exact h.receiver

namespace Quiet

variable {scopes : List Names} {name : Token}

theorem nil : Quiet [] := ⟨by simp, by simp⟩

theorem orderly (h : Quiet scopes) : Orderly scopes :=
  ⟨fun names hm => h.settled names (List.mem_of_mem_tail hm), h.words⟩

theorem push {names : Names} (h : Quiet scopes) (hs : Settled names) (hw : Words names) :
    Quiet (names :: scopes) := by
  refine ⟨?_, ?_⟩ <;> rintro other (_ | ⟨_, hm⟩)
  · exact hs
  · exact h.settled other hm
  · exact hw
  · exact h.words other hm

/-- A name is declared before its initializer is read. -/
theorem reading (h : Quiet scopes) (hn : name.IsName) :
    Orderly (marked name.lexeme false scopes) := by
  cases scopes with
  | nil => exact h.orderly
  | cons names outer =>
    refine ⟨fun other hm => h.settled other (List.mem_cons_of_mem _ hm), ?_⟩
    rintro other (_ | ⟨_, hm⟩)
    · exact (h.words names (by simp)).marked hn false
    · exact h.words other (List.mem_cons_of_mem _ hm)

theorem defining (h : Quiet scopes) (hn : name.IsName) :
    Quiet (declaring scopes name.lexeme) := by
  cases scopes with
  | nil => exact h
  | cons names outer =>
    have rest : Quiet outer := ⟨fun other hm => h.settled other (List.mem_cons_of_mem _ hm),
      fun other hm => h.words other (List.mem_cons_of_mem _ hm)⟩
    refine rest.push ?_ (((h.words names (by simp)).marked hn false).marked hn true)
    intro x
    rw [lookup_cons, lookup_cons]
    split_ifs
    · simp
    · exact h.settled names (by simp) x

theorem definingAll {ps : List Token} (h : Quiet scopes) (hn : ∀ p ∈ ps, p.IsName) :
    Quiet ((ps.map Token.lexeme).foldl declaring scopes) := by
  induction ps generalizing scopes with
  | nil => exact h
  | cons p ps ih =>
    exact ih (h.defining (hn p (by simp))) fun p' hp => hn p' (List.mem_cons_of_mem _ hp)

end Quiet

/-- A statement declares one name or none. -/
theorem declared_cases {s : Stmt} (h : s.Proper) :
    s.declared = [] ∨ ∃ name : Token, name.IsName ∧ s.declared = [name.lexeme] := by
  cases s with
  | letDecl name initializer | constDecl name initializer =>
    rw [Stmt.Proper] at h
    rw [Stmt.declared]
    exact .inr ⟨name, h, rfl⟩
  | function d =>
    obtain ⟨name, params, body⟩ := d
    rw [Stmt.Proper, FunctionDecl.Proper] at h
    rw [Stmt.declared]
    exact .inr ⟨name, h.1, rfl⟩
  | classDecl name superclass methods statics =>
    rw [Stmt.Proper] at h
    rw [Stmt.declared]
    exact .inr ⟨name, h.1, rfl⟩
  | cond condition thenBranch elseBranch =>
    rw [Stmt.Proper] at h
    rw [Stmt.declared, h.2.1]
    cases elseBranch with
    | none => exact .inl (by rw [Stmt.declaredElse]; rfl)
    | some s =>
      rw [Stmt.ProperElse] at h
      exact .inl (by rw [Stmt.declaredElse, h.2.2.2]; rfl)
  | loop condition body =>
    rw [Stmt.Proper] at h
    rw [Stmt.declared]
    exact .inl h.2
  | expr e | print e | block body | ret keyword value =>
    rw [Stmt.declared]
    exact .inl rfl

theorem Quiet.after_stmt {scopes : List Names} {s : Stmt} (h : Quiet scopes) (hs : s.Proper) :
    Quiet (s.declared.foldl declaring scopes) := by
  rcases declared_cases hs with hd | ⟨name, hn, hd⟩ <;> rw [hd]
  · exact h
  · exact h.defining hn

/-- A scope around the place knows the name. -/
def Knows (scopes : List Names) (name : String) : Prop :=
  ∃ names ∈ scopes, (names.lookup name).isSome

theorem Knows.marked {scopes : List Names} {name : String} (h : Knows scopes name) (other : String)
    (defined : Bool) : Knows (marked other defined scopes) name := by
  obtain ⟨names, hm, hk⟩ := h
  cases scopes with
  | nil => cases hm
  | cons first outer =>
    rcases List.mem_cons.mp hm with rfl | hm
    · refine ⟨_, List.mem_cons_self, ?_⟩
      rw [lookup_cons]
      split_ifs
      · rfl
      · exact hk
    · exact ⟨names, List.mem_cons_of_mem _ hm, hk⟩

theorem Knows.push {scopes : List Names} {name : String} (h : Knows scopes name) (names : Names) :
    Knows (names :: scopes) name := by
  obtain ⟨found, hm, hk⟩ := h
  exact ⟨found, List.mem_cons_of_mem _ hm, hk⟩

theorem Knows.declaringAll {scopes : List Names} {name : String} (h : Knows scopes name)
    (xs : List String) : Knows (xs.foldl declaring scopes) name := by
  induction xs generalizing scopes with
  | nil => exact h
  | cons x xs ih => exact ih ((h.marked x false).marked x true)

/-- In a class body there is a receiver, and in that of a derived class a superclass. -/
structure Context.Receives (context : Context) (scopes : List Names) : Prop where
  this : context.cls ≠ .none → Knows scopes "this"
  super : context.cls = .derived → Knows scopes "super"

theorem Context.Receives.imp {context : Context} {scopes scopes' : List Names}
    (h : context.Receives scopes) (hi : ∀ name, Knows scopes name → Knows scopes' name) :
    context.Receives scopes' := ⟨fun hc => hi _ (h.this hc), fun hc => hi _ (h.super hc)⟩

theorem receives_receiverNames (context : Context) (scopes : List Names) :
    context.Receives (receiverNames context.cls :: scopes) := by
  refine ⟨fun _ => ⟨_, List.mem_cons_self, ?_⟩, fun hc => ⟨_, List.mem_cons_self, ?_⟩⟩
  · cases context.cls <;> decide
  · rw [hc]
    decide

namespace Fragment

/-- The state of the scopes where the walk comes to a fragment. -/
def Suits : Fragment → List Names → Prop
  | expr _ | exprs _ => Orderly
  | stmt _ | stmts _ | routine _ | methods _ _ => Quiet

/-- The fragment stands inside the scope of the receiver that its context speaks of. The superclass
of a class, a name, and its methods stand outside. -/
def Inner : Fragment → Prop
  | methods _ _ | expr (.var _ _) => False
  | _ => True

end Fragment

/-- The walk accepts what it finds at the place, and it has come there with scopes in order. -/
structure Place.Accepted (r : Resolution) (P : Place) : Prop where
  proper : P.fragment.Proper
  scopes : P.fragment.Suits P.progress.scopes
  receives : P.fragment.Inner → P.context.Receives P.progress.scopes
  covered : ∀ x ∈ P.fragment.declared, ∀ declared ∈ P.declared.head?, x ∈ declared
  walked : ∃ q, Accepts r P.fragment.ids (P.fragment.walk P.context) P.progress q

namespace Place.Accepted

/-- A part in the same context and scopes is accepted. -/
theorem move (h : P.Accepted r) (hi : P.fragment.Inner) {f : Fragment} {m : Progress}
    (proper : f.Proper) (scopes : f.Suits m.scopes)
    (knows : ∀ name, Knows P.progress.scopes name → Knows m.scopes name)
    (covered : f.declared ⊆ P.fragment.declared)
    (walked : Accepts r f.ids (f.walk P.context) m q) :
    Place.Accepted r ⟨P.context, P.declared, m, f⟩ :=
  ⟨proper, scopes, fun _ => (h.receives hi).imp knows, fun x hx => h.covered x (covered hx),
    ⟨q, walked⟩⟩

/-- An expression is accepted where the scopes stay the same. -/
theorem expr (h : P.Accepted r) (hi : P.fragment.Inner) (ho : Orderly P.progress.scopes) {e : Expr}
    {m : Progress} (hs : m.scopes = P.progress.scopes)
    (walked : Accepts r (identities e.references) (walkExpr P.context e) m q) :
    Place.Accepted r ⟨P.context, P.declared, m, .expr e⟩ := by
  refine h.move hi trivial ?_ (fun name hk => hs ▸ hk) (by simp [Fragment.declared]) walked
  rw [hs]
  exact ho

theorem exprs (h : P.Accepted r) (hi : P.fragment.Inner) (ho : Orderly P.progress.scopes)
    {es : List Expr} {m : Progress} (hs : m.scopes = P.progress.scopes)
    (walked : Accepts r (identities (Expr.referencesAll es)) (walkExprs P.context es) m q) :
    Place.Accepted r ⟨P.context, P.declared, m, .exprs es⟩ := by
  refine h.move hi trivial ?_ (fun name hk => hs ▸ hk) (by simp [Fragment.declared]) walked
  rw [hs]
  exact ho

/-- An expression and what is walked after it are accepted. -/
theorem expr_then (h : P.Accepted r) (hi : P.fragment.Inner) (ho : Orderly P.progress.scopes)
    {left : Expr} {f : Fragment} (ha : Accepts r (identities left.references ++ f.ids)
      (walkExpr P.context left >>= fun _ => f.walk P.context) P.progress q)
    (hf : ∀ m, m.scopes = P.progress.scopes → Accepts r f.ids (f.walk P.context) m q →
      Place.Accepted r ⟨P.context, P.declared, m, f⟩)
    (hq : Q = P.first (.expr left) ∨ Q ∈ P.after (walkExpr P.context left) f) :
    Q.Accepted r := by
  obtain ⟨m, hl, hr⟩ := ha.sequence (Grows.of_notes (walkExpr_notes _ left)) (f.walk_grows _)
  rcases hq with rfl | hq
  · exact h.expr hi ho rfl hl
  · obtain ⟨m', hm, rfl⟩ := Place.mem_after.mp hq
    cases hl.walked.symm.trans hm
    exact hf m (walkExpr_scopes hm) hr

/-- The parts of an expression are accepted. -/
theorem part_of_expr {context : Context} {declared : List (List String)} {p : Progress} {e : Expr}
    (h : Place.Accepted r ⟨context, declared, p, .expr e⟩)
    (hq : Q ∈ Place.parts ⟨context, declared, p, .expr e⟩) : Q.Accepted r := by
  have ho : Orderly p.scopes := h.scopes
  obtain ⟨q, ha⟩ := h.walked
  simp only [Fragment.walk, Fragment.ids, Fragment.references] at ha
  cases e with
  | literal | var | thisRef | superMethod => simp [Place.parts] at hq
  | group inner =>
    simp only [Place.parts, List.mem_singleton] at hq
    rw [walkExpr, Expr.references] at ha
    exact hq ▸ h.expr trivial ho rfl ha
  | unary operator operand =>
    simp only [Place.parts, List.mem_singleton] at hq
    rw [walkExpr, Expr.references] at ha
    exact hq ▸ h.expr trivial ho rfl ha
  | property object name =>
    simp only [Place.parts, List.mem_singleton] at hq
    rw [walkExpr, Expr.references] at ha
    exact hq ▸ h.expr trivial ho rfl ha
  | assign id name value =>
    simp only [Place.parts, List.mem_singleton] at hq
    rw [walkExpr, Expr.references, identities_append] at ha
    obtain ⟨m, hv, -⟩ := ha.sequence (Grows.of_notes (walkExpr_notes _ value))
      (Grows.of_notes (resolve_notes _ (by simp [identities])))
    exact hq ▸ h.expr trivial ho rfl hv
  | binary left operator right =>
    simp only [Place.parts, List.mem_cons] at hq
    rw [walkExpr, Expr.references, identities_append] at ha
    exact h.expr_then trivial ho (f := .expr right) ha (fun m hs hr => h.expr trivial ho hs hr) hq
  | logical left operator right =>
    simp only [Place.parts, List.mem_cons] at hq
    rw [walkExpr, Expr.references, identities_append] at ha
    exact h.expr_then trivial ho (f := .expr right) ha (fun m hs hr => h.expr trivial ho hs hr) hq
  | call callee paren arguments =>
    simp only [Place.parts, List.mem_cons] at hq
    rw [walkExpr, Expr.references, identities_append] at ha
    exact h.expr_then trivial ho (f := .exprs arguments) ha
      (fun m hs hr => h.exprs trivial ho hs hr) hq
  | setProperty object name value =>
    simp only [Place.parts, List.mem_cons] at hq
    rw [walkExpr, Expr.references, identities_append] at ha
    exact h.expr_then trivial ho (f := .expr object) (ha.perm List.perm_append_comm)
      (fun m hs hr => h.expr trivial ho hs hr) hq

theorem part_of_exprs {context : Context} {declared : List (List String)} {p : Progress}
    {es : List Expr} (h : Place.Accepted r ⟨context, declared, p, .exprs es⟩)
    (hq : Q ∈ Place.parts ⟨context, declared, p, .exprs es⟩) : Q.Accepted r := by
  cases es with
  | nil => simp [Place.parts] at hq
  | cons e es =>
    obtain ⟨q, ha⟩ := h.walked
    simp only [Fragment.walk, Fragment.ids, Fragment.references] at ha
    simp only [Place.parts, List.mem_cons] at hq
    rw [walkExprs, Expr.referencesAll, identities_append] at ha
    exact h.expr_then trivial h.scopes (f := .exprs es) ha
      (fun m hs hr => h.exprs trivial h.scopes hs hr) hq

/-- An initializer is accepted where its name is declared. -/
theorem initializer {context : Context} {declared : List (List String)} {p : Progress} {s : Stmt}
    {name : Token} {e : Expr} (h : Place.Accepted r ⟨context, declared, p, .stmt s⟩)
    (hn : name.IsName) (ha : Accepts r (identities e.references)
      (declare name >>= fun _ => thenDefine name (walkExpr context e)) p q)
    (hq : Q ∈ Place.after ⟨context, declared, p, .stmt s⟩ (declare name) (.expr e)) :
    Q.Accepted r := by
  have quiet : Quiet p.scopes := h.scopes
  obtain ⟨m, hm, rfl⟩ := Place.mem_after.mp hq
  obtain ⟨m', hd, he⟩ := ha.behind (declare_grows name)
    (thenDefine_grows name (Grows.of_notes (walkExpr_notes context e)))
  cases hd.walked.symm.trans hm
  obtain ⟨-, rfl⟩ := declare_ok hm
  obtain ⟨m, hw, rfl⟩ := thenDefine_ok he.walked
  refine h.move trivial trivial (quiet.reading hn) (fun x hk => hk.marked _ _)
    (by simp [Fragment.declared]) (q := m) ?_
  exact ⟨hw, he.clean, he.distinct, he.fresh, he.agrees⟩

theorem part_of_block {context : Context} {declared : List (List String)} {p : Progress}
    {body : List Stmt} (h : Place.Accepted r ⟨context, declared, p, .stmt (.block body)⟩)
    (hq : Q ∈ Place.parts ⟨context, declared, p, .stmt (.block body)⟩) : Q.Accepted r := by
  have quiet : Quiet p.scopes := h.scopes
  have proper : Stmt.ProperAll body := by
    have := h.proper
    rwa [Fragment.Proper, Stmt.Proper] at this
  obtain ⟨q, ha⟩ := h.walked
  simp only [Fragment.walk, Fragment.ids, Fragment.references, walkStmt, Stmt.references] at ha
  obtain ⟨m, hb⟩ := ha.inScope
  simp only [Place.parts, List.mem_singleton] at hq
  subst hq
  refine ⟨proper, quiet.push .nil .nil, ?_, ?_, ⟨m, hb⟩⟩
  · exact fun _ => (h.receives trivial).imp fun name hk => hk.push []
  · rintro x hx names ⟨⟩
    exact hx

theorem part_of_cond {context : Context} {declared : List (List String)} {p : Progress}
    {condition : Expr} {thenBranch : Stmt} {elseBranch : Option Stmt}
    (h : Place.Accepted r ⟨context, declared, p, .stmt (.cond condition thenBranch elseBranch)⟩)
    (hq : Q ∈ Place.parts ⟨context, declared, p, .stmt (.cond condition thenBranch elseBranch)⟩) :
    Q.Accepted r := by
  have quiet : Quiet p.scopes := h.scopes
  obtain ⟨hthen, hnone, helse⟩ : thenBranch.Proper ∧ thenBranch.declared = [] ∧
      Stmt.ProperElse elseBranch := by
    have := h.proper
    rwa [Fragment.Proper, Stmt.Proper] at this
  obtain ⟨q, ha⟩ := h.walked
  simp only [Fragment.walk, Fragment.ids, Fragment.references, walkStmt, Stmt.references,
    identities_append, List.append_assoc] at ha
  obtain ⟨m, hc, ha⟩ := ha.sequence (Grows.of_notes (walkExpr_notes _ condition))
    (Grows.sequence (walkStmt_grows _ thenBranch) (walkElse_grows _ elseBranch))
  obtain ⟨m', ht, he⟩ := ha.sequence (walkStmt_grows _ thenBranch) (walkElse_grows _ elseBranch)
  have hsc : m.scopes = p.scopes := walkExpr_scopes hc.walked
  have hst : m'.scopes = p.scopes := by
    rw [walkStmt_scopes thenBranch ht.walked, hnone, hsc]
    rfl
  simp only [Place.parts, List.mem_cons, List.mem_append, List.mem_flatMap, Option.mem_toList,
    Place.mem_after] at hq
  rcases hq with rfl | ⟨a, hm, rfl⟩ | ⟨s, hs, a, hm, rfl⟩
  · exact h.expr trivial quiet.orderly rfl hc
  · cases hc.walked.symm.trans hm
    refine h.move trivial hthen (hsc ▸ quiet) (fun name hk => hsc ▸ hk) ?_ ht
    simp [Fragment.declared, hnone]
  · rw [bind_of_ok hc.walked] at hm
    cases ht.walked.symm.trans hm
    cases hs
    rw [Stmt.ProperElse] at helse
    simp only [walkElse, Stmt.referencesOption] at he
    refine h.move trivial helse.1 (hst ▸ quiet) (fun name hk => hst ▸ hk) ?_ he
    simp [Fragment.declared, helse.2]

theorem part_of_loop {context : Context} {declared : List (List String)} {p : Progress}
    {condition : Expr} {body : Stmt}
    (h : Place.Accepted r ⟨context, declared, p, .stmt (.loop condition body)⟩)
    (hq : Q ∈ Place.parts ⟨context, declared, p, .stmt (.loop condition body)⟩) :
    Q.Accepted r := by
  have quiet : Quiet p.scopes := h.scopes
  obtain ⟨hbody, hnone⟩ : body.Proper ∧ body.declared = [] := by
    have := h.proper
    rwa [Fragment.Proper, Stmt.Proper] at this
  obtain ⟨q, ha⟩ := h.walked
  simp only [Fragment.walk, Fragment.ids, Fragment.references, walkStmt, Stmt.references,
    identities_append] at ha
  simp only [Place.parts, List.mem_cons] at hq
  refine h.expr_then trivial quiet.orderly (f := .stmt body) ha ?_ hq
  intro m hs hb
  refine h.move trivial hbody (hs ▸ quiet) (fun name hk => hs ▸ hk) ?_ hb
  simp [Fragment.declared, hnone]

theorem part_of_function {context : Context} {declared : List (List String)} {p : Progress}
    {d : FunctionDecl} (h : Place.Accepted r ⟨context, declared, p, .stmt (.function d)⟩)
    (hq : Q ∈ Place.parts ⟨context, declared, p, .stmt (.function d)⟩) : Q.Accepted r := by
  have quiet : Quiet p.scopes := h.scopes
  have proper : d.Proper := by
    have := h.proper
    rwa [Fragment.Proper, Stmt.Proper] at this
  have hn : d.name.IsName := by
    obtain ⟨name, params, body⟩ := d
    rw [FunctionDecl.Proper] at proper
    exact proper.1
  obtain ⟨q, ha⟩ := h.walked
  simp only [Fragment.walk, Fragment.ids, Fragment.references, walkStmt, Stmt.references,
    ← bind_assoc] at ha
  obtain ⟨m, hd, hr⟩ := ha.behind
    ((declare_grows d.name).bind fun _ => mark_grows _ _) (walkRoutine_grows _ d)
  simp only [Place.parts, Place.mem_after] at hq
  obtain ⟨m', hm, rfl⟩ := hq
  cases hd.walked.symm.trans hm
  obtain ⟨_, m₁, hd₁, hd₂⟩ := bind_ok.mp hm
  obtain ⟨-, rfl⟩ := declare_ok hd₁
  obtain rfl := define_ok hd₂
  refine ⟨proper, quiet.defining hn, ?_, by simp [Fragment.declared], ⟨q, hr⟩⟩
  intro _
  have hk := h.receives trivial
  refine ⟨fun hc => ?_, fun hc => ?_⟩
  · exact ((hk.this hc).marked _ _).marked _ _
  · exact ((hk.super hc).marked _ _).marked _ _

theorem part_of_class {context : Context} {declared : List (List String)} {p : Progress}
    {name : Token} {superclass : Option Expr} {methods statics : List FunctionDecl}
    (h : Place.Accepted r
      ⟨context, declared, p, .stmt (.classDecl name superclass methods statics)⟩)
    (hq : Q ∈ Place.parts
      ⟨context, declared, p, .stmt (.classDecl name superclass methods statics)⟩) :
    Q.Accepted r := by
  have quiet : Quiet p.scopes := h.scopes
  obtain ⟨hn, hnames, hmethods, hstatics⟩ : name.IsName ∧ Expr.NamesClass superclass ∧
      FunctionDecl.ProperAll methods ∧ FunctionDecl.ProperAll statics := by
    have := h.proper
    rwa [Fragment.Proper, Stmt.Proper] at this
  obtain ⟨q, ha⟩ := h.walked
  simp only [Fragment.walk, Fragment.ids, Fragment.references, walkStmt_classDecl, Stmt.references,
    identities_append] at ha
  have opened := openClass_grows name superclass
  have extended := Grows.sequence opened (Grows.of_notes
    (walkOption_notes { context with cls := classKind superclass } superclass))
  rw [List.nil_append] at extended
  obtain ⟨m₂, h₂, hs⟩ := ha.sequence (Grows.sequence extended (walkMethods_grows _ _ methods))
    (walkMethods_grows _ _ statics)
  obtain ⟨m₁, h₁, hm⟩ := h₂.sequence extended (walkMethods_grows _ _ methods)
  obtain ⟨m, ho, he⟩ := h₁.behind opened
    (Grows.of_notes (walkOption_notes _ superclass))
  have hsc : m.scopes = Scoping.declaring p.scopes name.lexeme := openClass_scopes ho.walked
  have hsc₁ : m₁.scopes = Scoping.declaring p.scopes name.lexeme :=
    (walkOption_scopes he.walked).trans hsc
  have hsc₂ : m₂.scopes = Scoping.declaring p.scopes name.lexeme :=
    (walkMethods_scopes hm.walked).trans hsc₁
  have defined := quiet.defining hn
  simp only [Place.parts, List.mem_append, List.mem_flatMap, Option.mem_toList,
    Place.mem_after] at hq
  rcases hq with ⟨e, hx, a, hw, rfl⟩ | ⟨a, hw, rfl⟩ | ⟨a, hw, rfl⟩
  · cases ho.walked.symm.trans hw
    cases hx
    obtain ⟨id, token, rfl⟩ := hnames
    refine ⟨trivial, ?_, False.elim, by simp [Fragment.declared], ⟨m₁, he⟩⟩
    rw [Fragment.Suits, hsc]
    exact defined.orderly
  · cases h₁.walked.symm.trans hw
    refine ⟨hmethods, ?_, False.elim, by simp [Fragment.declared], ⟨m₂, hm⟩⟩
    rw [Fragment.Suits, hsc₁]
    exact defined
  · cases h₂.walked.symm.trans hw
    refine ⟨hstatics, ?_, False.elim, by simp [Fragment.declared], ⟨q, hs⟩⟩
    rw [Fragment.Suits, hsc₂]
    exact defined

/-- The parts of a statement are accepted. -/
theorem part_of_stmt {context : Context} {declared : List (List String)} {p : Progress} {s : Stmt}
    (h : Place.Accepted r ⟨context, declared, p, .stmt s⟩)
    (hq : Q ∈ Place.parts ⟨context, declared, p, .stmt s⟩) : Q.Accepted r := by
  have quiet : Quiet p.scopes := h.scopes
  obtain ⟨q, ha⟩ := h.walked
  simp only [Fragment.walk, Fragment.ids, Fragment.references] at ha
  cases s with
  | expr e | print e =>
    simp only [Place.parts, List.mem_singleton] at hq
    rw [walkStmt, Stmt.references] at ha
    exact hq ▸ h.expr trivial quiet.orderly rfl ha
  | letDecl name initializer =>
    have hn : name.IsName := by
      have := h.proper
      rwa [Fragment.Proper, Stmt.Proper] at this
    rw [walkStmt, Stmt.references] at ha
    simp only [Place.parts, List.mem_flatMap, Option.mem_toList] at hq
    obtain ⟨e, he, hq⟩ := hq
    cases he
    exact h.initializer hn ha hq
  | constDecl name initializer =>
    have hn : name.IsName := by
      have := h.proper
      rwa [Fragment.Proper, Stmt.Proper] at this
    rw [walkStmt, Stmt.references] at ha
    exact h.initializer hn ha hq
  | ret keyword value =>
    rw [walkStmt_ret, Stmt.references] at ha
    simp only [Place.parts, List.mem_flatMap, Option.mem_toList, Place.mem_after] at hq
    obtain ⟨e, he, m, hm, rfl⟩ := hq
    cases he
    have checked : Leads (Notes []) (checkReturn context keyword (some e)) :=
      checkReturn_notes context keyword (some e)
    obtain ⟨m', hc, hv⟩ := Accepts.sequence ha (Grows.of_notes checked)
      (Grows.of_notes (walkOption_notes context (some e)))
    cases hc.walked.symm.trans hm
    exact h.expr trivial quiet.orderly (checked.ok hm).scopes hv
  | block body => exact part_of_block h hq
  | cond condition thenBranch elseBranch => exact part_of_cond h hq
  | loop condition body => exact part_of_loop h hq
  | function d => exact part_of_function h hq
  | classDecl name superclass methods statics => exact part_of_class h hq

theorem part_of_stmts {context : Context} {declared : List (List String)} {p : Progress}
    {ss : List Stmt} (h : Place.Accepted r ⟨context, declared, p, .stmts ss⟩)
    (hq : Q ∈ Place.parts ⟨context, declared, p, .stmts ss⟩) : Q.Accepted r := by
  cases ss with
  | nil => simp [Place.parts] at hq
  | cons s ss =>
    have quiet : Quiet p.scopes := h.scopes
    obtain ⟨hs, hss⟩ : s.Proper ∧ Stmt.ProperAll ss := by
      have := h.proper
      rwa [Fragment.Proper, Stmt.ProperAll] at this
    obtain ⟨q, ha⟩ := h.walked
    simp only [Fragment.walk, Fragment.ids, Fragment.references, walkStmts, Stmt.referencesAll,
      identities_append] at ha
    obtain ⟨m, hfirst, hrest⟩ := ha.sequence (isolated_grows (walkStmt_grows context s))
      (walkStmts_grows context ss)
    have hm : m.scopes = s.declared.foldl Scoping.declaring p.scopes :=
      walkStmt_scopes s hfirst.isolated.walked
    simp only [Place.parts, List.mem_cons, Place.mem_after] at hq
    rcases hq with rfl | ⟨a, hw, rfl⟩
    · refine h.move trivial hs quiet (fun name hk => hk) ?_ hfirst.isolated
      simp [Fragment.declared]
    · cases hfirst.walked.symm.trans hw
      refine h.move trivial hss (hm ▸ quiet.after_stmt hs) (fun name hk => ?_) ?_ hrest
      · rw [hm]
        exact hk.declaringAll _
      · simp [Fragment.declared]

theorem part_of_routine {context : Context} {declared : List (List String)} {p : Progress}
    {d : FunctionDecl} (h : Place.Accepted r ⟨context, declared, p, .routine d⟩)
    (hq : Q ∈ Place.parts ⟨context, declared, p, .routine d⟩) : Q.Accepted r := by
  have quiet : Quiet p.scopes := h.scopes
  obtain ⟨name, params, body⟩ := d
  obtain ⟨-, hparams, hbody⟩ : name.IsName ∧ (∀ t ∈ params, t.IsName) ∧ Stmt.ProperAll body := by
    have := h.proper
    rwa [Fragment.Proper, FunctionDecl.Proper] at this
  obtain ⟨q, ha⟩ := h.walked
  simp only [Fragment.walk, Fragment.ids, Fragment.references, walkRoutine,
    FunctionDecl.references] at ha
  obtain ⟨q', ha⟩ := ha.inScope
  obtain ⟨m, hp, hb⟩ := ha.behind (walkParameters_grows params)
    (walkStmts_grows context body)
  simp only [Place.parts, Place.mem_after, Place.inside] at hq
  obtain ⟨a, hw, rfl⟩ := hq
  cases hp.walked.symm.trans hw
  have hm : m.scopes = (params.map Token.lexeme).foldl Scoping.declaring ([] :: p.scopes) :=
    walkParameters_scopes hw
  refine ⟨hbody, ?_, fun _ => (h.receives trivial).imp fun x hk => ?_, ?_, ⟨q', hb⟩⟩
  · rw [Fragment.Suits, hm]
    exact (quiet.push .nil .nil).definingAll hparams
  · rw [hm]
    exact (hk.push []).declaringAll _
  · rintro x hx names ⟨⟩
    exact List.mem_append_right _ hx

theorem part_of_methods {context : Context} {declared : List (List String)} {p : Progress}
    {kind : String → BodyKind} {ds : List FunctionDecl}
    (h : Place.Accepted r ⟨context, declared, p, .methods kind ds⟩)
    (hq : Q ∈ Place.parts ⟨context, declared, p, .methods kind ds⟩) : Q.Accepted r := by
  cases ds with
  | nil => simp [Place.parts] at hq
  | cons d ds =>
    have quiet : Quiet p.scopes := h.scopes
    obtain ⟨hd, hds⟩ : d.Proper ∧ FunctionDecl.ProperAll ds := by
      have := h.proper
      rwa [Fragment.Proper, FunctionDecl.ProperAll] at this
    obtain ⟨q, ha⟩ := h.walked
    simp only [Fragment.walk, Fragment.ids, Fragment.references, walkMethods,
      FunctionDecl.referencesAll, identities_append] at ha
    obtain ⟨m, hfirst, hrest⟩ := ha.sequence (inScope_grows _ (walkRoutine_grows _ d))
      (walkMethods_grows kind context ds)
    simp only [Place.parts, List.mem_cons, Place.mem_after] at hq
    rcases hq with rfl | ⟨a, hw, rfl⟩
    · obtain ⟨m', hr⟩ := hfirst.inScope
      refine ⟨hd, ?_, ?_, by simp [Fragment.declared, Place.first, Place.inside], ⟨m', hr⟩⟩
      · exact quiet.push (settled_receiverNames _) (words_receiverNames _)
      · exact fun _ => receives_receiverNames _ _
    · cases hfirst.walked.symm.trans hw
      obtain ⟨m', -, rfl⟩ := inScope_ok hw
      exact ⟨hds, quiet, False.elim, by simp [Fragment.declared], ⟨q, hrest⟩⟩

/-- A walk that accepts a place accepts its parts. -/
theorem part (h : P.Accepted r) (hq : Q ∈ P.parts) : Q.Accepted r := by
  obtain ⟨context, declared, p, f⟩ := P
  cases f with
  | expr e => exact part_of_expr h hq
  | exprs es => exact part_of_exprs h hq
  | stmt s => exact part_of_stmt h hq
  | stmts ss => exact part_of_stmts h hq
  | routine d => exact part_of_routine h hq
  | methods kind ds => exact part_of_methods h hq

end Place.Accepted

end Scoping

end ClassScript
