import ClassScript.Proofs.Lexical.Names
import ClassScript.Proofs.Syntax.Numbering
import ClassScript.Program

/-! The shape of the programs that sources say: what is declared has a name of its own, a branch and
a loop body declare nothing in the scope around them, a class extends a name, and no two references
share an identity. -/
namespace ClassScript

mutual
/-- The names that a statement declares in the scope it stands in. -/
def Stmt.declared : Stmt → List String
  | .letDecl name _ => [name.lexeme]
  | .constDecl name _ => [name.lexeme]
  | .function declaration => [declaration.name.lexeme]
  | .classDecl name _ _ _ => [name.lexeme]
  | .cond _ thenBranch elseBranch => thenBranch.declared ++ Stmt.declaredElse elseBranch
  | .loop _ body => body.declared
  | .expr _ | .print _ | .block _ | .ret _ _ => []

def Stmt.declaredElse : Option Stmt → List String
  | none => []
  | some s => s.declared
end

/-- The names that a body declares directly. -/
def Stmt.declaredAll (body : List Stmt) : List String := body.flatMap Stmt.declared

@[simp] theorem Stmt.declaredAll_nil : Stmt.declaredAll [] = [] := rfl

@[simp] theorem Stmt.declaredAll_cons (s : Stmt) (ss : List Stmt) :
    Stmt.declaredAll (s :: ss) = s.declared ++ Stmt.declaredAll ss := rfl

/-- What a class extends is a name. -/
def Expr.NamesClass : Option Expr → Prop
  | none => True
  | some e => ∃ id name, e = .var id name

mutual
def Stmt.Proper : Stmt → Prop
  | .expr _ | .print _ | .ret _ _ => True
  | .letDecl name _ => name.IsName
  | .constDecl name _ => name.IsName
  | .block body => Stmt.ProperAll body
  | .cond _ thenBranch elseBranch =>
    thenBranch.Proper ∧ thenBranch.declared = [] ∧ Stmt.ProperElse elseBranch
  | .loop _ body => body.Proper ∧ body.declared = []
  | .function declaration => declaration.Proper
  | .classDecl name superclass methods statics =>
    name.IsName ∧ Expr.NamesClass superclass ∧ FunctionDecl.ProperAll methods ∧
      FunctionDecl.ProperAll statics

def Stmt.ProperAll : List Stmt → Prop
  | [] => True
  | s :: ss => s.Proper ∧ Stmt.ProperAll ss

def Stmt.ProperElse : Option Stmt → Prop
  | none => True
  | some s => s.Proper ∧ s.declared = []

def FunctionDecl.Proper : FunctionDecl → Prop
  | ⟨name, params, body⟩ => name.IsName ∧ (∀ p ∈ params, p.IsName) ∧ Stmt.ProperAll body

def FunctionDecl.ProperAll : List FunctionDecl → Prop
  | [] => True
  | d :: ds => d.Proper ∧ FunctionDecl.ProperAll ds
end

/-- Tokens that stand for names only where they are spelled like names. -/
def AllSpelled (ts : List Token) : Prop := ∀ t ∈ ts, t.Spelled

theorem AllSpelled.suffix {ts rest : List Token} (h : AllSpelled ts) (hs : rest <:+ ts) :
    AllSpelled rest := fun t ht => h t (hs.mem ht)

theorem AllSpelled.head {t : Token} {rest : List Token} (h : AllSpelled (t :: rest))
    (hi : t.is .identifier) : t.IsName := h t (by simp) hi

/-- A reading of a tree uses up a front part of the tokens, gives the references of the tree
distinct identities, and makes a tree of the expected shape if the tokens are well spelled. -/
structure Builds {α : Type} (refs : α → List Reference) (shape : α → Prop) (ts : List Token)
    (n : Nat) (v : α) (next : Nat) (rest : List Token) : Prop where
  suffix : rest <:+ ts
  numbered : Numbered n next (identities (refs v))
  shaped : AllSpelled ts → shape v

theorem Builds.of_reads {e : Expr} {ts rest : List Token} {n next : Nat} {α : Type}
    {refs : α → List Reference} {shape : α → Prop} {v : α} (h : Reads ts n e next rest)
    (hr : refs v = e.references) (hs : shape v) : Builds refs shape ts n v next rest :=
  ⟨h.1, hr ▸ h.2.numbered, fun _ => hs⟩

section Rules

variable {endLine : Nat}

theorem optionalExpression_builds (stop : Symbol) (n : Nat) (ts : List Token) :
    (optionalExpression endLine stop n ts).Gives
      (Builds Expr.referencesOption (fun _ => True) ts n) := by
  unfold optionalExpression
  split
  · split
    · exact ⟨List.suffix_refl _, .nil n, fun _ => trivial⟩
    · exact (expression_reads n _).map fun e next rest h => .of_reads h rfl trivial
  · exact (expression_reads n _).map fun e next rest h => .of_reads h rfl trivial

theorem letInitializer_builds (n : Nat) (ts : List Token) :
    (letInitializer endLine n ts).Gives (Builds Expr.referencesOption (fun _ => True) ts n) := by
  unfold letInitializer
  split
  · split
    · refine (expression_reads n _).map ?_
      rintro e next rest ⟨hs, ha⟩
      exact ⟨suffix_of_cons (List.suffix_refl _) hs, ha.numbered, fun _ => trivial⟩
    · exact ⟨List.suffix_refl _, .nil n, fun _ => trivial⟩
  · exact ⟨List.suffix_refl _, .nil n, fun _ => trivial⟩

/-- A declaration or a statement with the shape of one. -/
abbrev BuildsStmt (ts : List Token) (n : Nat) (s : Stmt) (next : Nat) (rest : List Token) : Prop :=
  Builds Stmt.references Stmt.Proper ts n s next rest

/-- A statement that declares nothing. -/
abbrev BuildsBranch (ts : List Token) (n : Nat) (s : Stmt) (next : Nat) (rest : List Token) :
    Prop :=
  Builds Stmt.references (fun s => s.Proper ∧ s.declared = []) ts n s next rest

theorem letDeclaration_builds (n : Nat) (ts : List Token) :
    (letDeclaration endLine n ts).Gives (BuildsStmt ts n) := by
  unfold letDeclaration
  refine expect_gives.andThen ?_
  rintro name n₁ rest₁ - ⟨rfl, hi, rfl⟩
  refine (letInitializer_builds n₁ rest₁).andThen ?_
  rintro initializer n₂ rest₂ - h
  refine expect_gives.map ?_
  rintro semicolon n₃ rest₃ ⟨rfl, -, rfl⟩
  refine ⟨suffix_of_cons (List.suffix_refl _) (suffix_of_cons h.suffix (List.suffix_refl _)),
    ?_, ?_⟩
  · exact h.numbered
  · intro ht
    exact ht.head hi

theorem constDeclaration_builds (n : Nat) (ts : List Token) :
    (constDeclaration endLine n ts).Gives (BuildsStmt ts n) := by
  unfold constDeclaration
  refine expect_gives.andThen ?_
  rintro name n₁ rest₁ - ⟨rfl, hi, rfl⟩
  refine expect_gives.andThen ?_
  rintro equals n₂ rest₂ - ⟨rfl, -, rfl⟩
  refine (expression_reads n₂ rest₂).andThen ?_
  rintro value n₃ rest₃ - ⟨hs, ha⟩
  refine expect_gives.map ?_
  rintro semicolon n₄ rest₄ ⟨rfl, -, rfl⟩
  refine ⟨?_, ?_, ?_⟩
  · exact suffix_of_cons (List.suffix_cons _ _) (suffix_of_cons hs (List.suffix_refl _))
  · exact ha.numbered
  · intro ht
    exact ht.head hi

theorem expressionStatement_builds (n : Nat) (ts : List Token) :
    (expressionStatement endLine n ts).Gives (BuildsBranch ts n) := by
  unfold expressionStatement
  refine (expression_reads n ts).andThen ?_
  rintro e n₁ rest₁ - ⟨hs, ha⟩
  refine expect_gives.map ?_
  rintro semicolon n₂ rest₂ ⟨rfl, -, rfl⟩
  refine ⟨suffix_of_cons hs (List.suffix_refl _), ?_, fun _ => ⟨?_, ?_⟩⟩
  · exact ha.numbered
  · exact trivial
  · rfl

theorem printStatement_builds (n : Nat) (ts : List Token) :
    (printStatement endLine n ts).Gives (BuildsBranch ts n) := by
  unfold printStatement
  refine (expression_reads n ts).andThen ?_
  rintro e n₁ rest₁ - ⟨hs, ha⟩
  refine expect_gives.map ?_
  rintro semicolon n₂ rest₂ ⟨rfl, -, rfl⟩
  refine ⟨suffix_of_cons hs (List.suffix_refl _), ?_, fun _ => ⟨?_, ?_⟩⟩
  · exact ha.numbered
  · exact trivial
  · rfl

theorem returnStatement_builds (keyword : Token) (n : Nat) (ts : List Token) :
    (returnStatement endLine keyword n ts).Gives (BuildsBranch ts n) := by
  unfold returnStatement
  refine (optionalExpression_builds _ n ts).andThen ?_
  rintro value n₁ rest₁ - h
  refine expect_gives.map ?_
  rintro semicolon n₂ rest₂ ⟨rfl, -, rfl⟩
  refine ⟨suffix_of_cons h.suffix (List.suffix_refl _), ?_, fun _ => ⟨?_, ?_⟩⟩
  · exact h.numbered
  · exact trivial
  · rfl

theorem condition_reads (missing : SyntaxFault) (n : Nat) (ts : List Token) :
    (condition endLine missing n ts).Gives (Reads ts n) := by
  unfold condition
  refine expect_gives.andThen ?_
  rintro paren n₁ rest₁ - ⟨rfl, -, rfl⟩
  refine (expression_reads n₁ rest₁).andThen ?_
  rintro e n₂ rest₂ - ⟨hs, ha⟩
  refine expect_gives.map ?_
  rintro close n₃ rest₃ ⟨rfl, -, rfl⟩
  exact ⟨suffix_of_cons (List.suffix_refl _) (suffix_of_cons hs (List.suffix_refl _)), ha⟩

/-- The first clause of a `for` statement is a declaration or an expression. -/
theorem forInitializer_builds (n : Nat) (ts : List Token) :
    (forInitializer endLine n ts).Gives
      (Builds Stmt.referencesOption (fun s => ∀ i ∈ s, i.Proper) ts n) := by
  unfold forInitializer
  have ofStmt : ∀ ts s next rest, BuildsBranch ts n s next rest →
      Builds Stmt.referencesOption (fun s => ∀ i ∈ s, i.Proper) ts n (some s) next rest := by
    intro ts s next rest h
    refine ⟨h.suffix, ?_, ?_⟩
    · exact h.numbered
    · intro ht i hi
      cases hi
      exact (h.shaped ht).1
  split
  · split
    · refine ⟨List.suffix_cons _ _, ?_, by simp⟩
      exact .nil n
    · split
      · refine (letDeclaration_builds n _).map ?_
        rintro s next rest h
        refine ⟨suffix_of_cons (List.suffix_refl _) h.suffix, ?_, ?_⟩
        · exact h.numbered
        · intro ht i hi
          cases hi
          exact h.shaped (ht.suffix (List.suffix_cons _ _))
      · exact (expressionStatement_builds n _).map (ofStmt _)
  · exact (expressionStatement_builds n _).map (ofStmt _)

/-- The references of the clauses of a `for` statement, in the order in which they are read. -/
def clauseReferences (clauses : Option Stmt × Option Expr × Option Expr) : List Reference :=
  Stmt.referencesOption clauses.1 ++ Expr.referencesOption clauses.2.1
    ++ Expr.referencesOption clauses.2.2

theorem forClauses_builds (n : Nat) (ts : List Token) :
    (forClauses endLine n ts).Gives
      (Builds clauseReferences (fun clauses => ∀ i ∈ clauses.1, i.Proper) ts n) := by
  unfold forClauses
  refine expect_gives.andThen ?_
  rintro paren n₁ rest₁ - ⟨rfl, -, rfl⟩
  refine (forInitializer_builds n₁ rest₁).andThen ?_
  rintro initializer n₂ rest₂ - hi
  refine (optionalExpression_builds _ n₂ rest₂).andThen ?_
  rintro condition n₃ rest₃ - hc
  refine expect_gives.andThen ?_
  rintro semicolon n₄ rest₄ - ⟨rfl, -, rfl⟩
  refine (optionalExpression_builds _ n₄ rest₄).andThen ?_
  rintro step n₅ rest₅ - hst
  refine expect_gives.map ?_
  rintro close n₆ rest₆ ⟨rfl, -, rfl⟩
  refine ⟨?_, ?_, ?_⟩
  · exact suffix_of_cons (List.suffix_refl _) (suffix_of_cons
      (hst.suffix.trans ((List.suffix_cons _ _).trans (hc.suffix.trans hi.suffix)))
      (List.suffix_refl _))
  · simp only [clauseReferences, identities_append]
    exact (hi.numbered.append hc.numbered).append hst.numbered
  · intro ht
    exact hi.shaped (ht.suffix (List.suffix_cons _ _))

/-- The reading order of a `for` statement and the order of the tree it becomes differ in the
step. -/
theorem forLoop_references_perm (initializer : Option Stmt) (condition step : Option Expr)
    (body : Stmt) : (clauseReferences (initializer, condition, step) ++ body.references).Perm
      (Stmt.forLoop initializer condition step body).references := by
  have hc : (condition.getD (.literal (.bool true))).references =
      Expr.referencesOption condition := by
    cases condition <;> simp [Expr.references, Expr.referencesOption]
  cases initializer <;> cases step <;>
    simp only [clauseReferences, Stmt.forLoop, Stmt.references, Stmt.referencesAll, hc,
      Stmt.referencesOption, Expr.referencesOption, List.append_nil, List.nil_append,
      List.append_assoc]
  · exact .refl _
  · exact List.Perm.append_left _ List.perm_append_comm
  · exact .refl _
  · exact (List.perm_append_comm.append_left _).append_left _

theorem forLoop_proper {initializer : Option Stmt} {condition step : Option Expr} {body : Stmt}
    (hi : ∀ i ∈ initializer, i.Proper) (hb : body.Proper) (hd : body.declared = []) :
    (Stmt.forLoop initializer condition step body).Proper ∧
      (Stmt.forLoop initializer condition step body).declared = [] := by
  cases initializer <;> cases step <;>
    simp_all [Stmt.forLoop, Stmt.Proper, Stmt.ProperAll, Stmt.declared]

theorem superclassClause_builds (n : Nat) (ts : List Token) :
    (superclassClause endLine n ts).Gives (Builds Expr.referencesOption Expr.NamesClass ts n) := by
  unfold superclassClause
  split
  · split
    · refine expect_gives.andThen ?_
      rintro name n₁ rest₁ - ⟨rfl, -, rfl⟩
      refine ⟨suffix_of_cons (List.suffix_cons _ _) (List.suffix_refl _), ?_, ?_⟩
      · simp only [Expr.referencesOption, Expr.references]
        exact (Ascending.single n₁).numbered
      · exact fun _ => ⟨_, _, rfl⟩
    · exact ⟨List.suffix_refl _, .nil n, fun _ => trivial⟩
  · exact ⟨List.suffix_refl _, .nil n, fun _ => trivial⟩

theorem classHeading_builds (n : Nat) (ts : List Token) :
    (classHeading endLine n ts).Gives (Builds (fun heading => Expr.referencesOption heading.2)
      (fun heading => heading.1.IsName ∧ Expr.NamesClass heading.2) ts n) := by
  unfold classHeading
  refine expect_gives.andThen ?_
  rintro name n₁ rest₁ - ⟨rfl, hi, rfl⟩
  refine (superclassClause_builds n₁ rest₁).andThen ?_
  rintro superclass n₂ rest₂ - h
  refine expect_gives.map ?_
  rintro brace n₃ rest₃ ⟨rfl, -, rfl⟩
  refine ⟨suffix_of_cons (List.suffix_refl _) (suffix_of_cons h.suffix (List.suffix_refl _)),
    h.numbered, ?_⟩
  intro ht
  exact ⟨ht.head hi, h.shaped (ht.suffix (List.suffix_cons _ _))⟩

/-- Parameters hold no reference. -/
abbrev ReadsNames (ts : List Token) (n : Nat) (ps : List Token) (next : Nat) (rest : List Token) :
    Prop :=
  rest <:+ ts ∧ next = n ∧ (AllSpelled ts → ∀ p ∈ ps, p.IsName)

theorem parameterList_reads (line count n : Nat) (ts : List Token) :
    (parameterList endLine line count n ts).Gives (ReadsNames ts n) := by
  rw [parameterList]
  split
  · trivial
  · refine expect_gives.andThen ?_
    rintro parameter n₁ rest hl ⟨hts, hi, rfl⟩
    have single : ReadsNames ts n₁ [parameter] n₁ rest := by
      subst hts
      refine ⟨List.suffix_cons _ _, rfl, ?_⟩
      intro ht p hp
      rw [List.mem_singleton.mp hp]
      exact ht.head hi
    cases rest with
    | nil => exact single
    | cons t more =>
      have hlt : more.length < ts.length := Nat.lt_of_succ_lt hl
      dsimp only
      split
      · refine (parameterList_reads line (count + 1) n₁ more).map ?_
        rintro ps n₂ rest₂ ⟨hs, rfl, hp⟩
        have front : more <:+ ts := suffix_of_cons single.1 (List.suffix_refl _)
        refine ⟨hs.trans front, rfl, ?_⟩
        intro ht p hm
        rcases List.mem_cons.mp hm with rfl | hm
        · exact single.2.2 ht p (by simp)
        · exact hp (ht.suffix front) p hm
      · exact single
termination_by ts.length
decreasing_by omega

theorem parameters_reads (line n : Nat) (ts : List Token) :
    (parameters endLine line n ts).Gives (ReadsNames ts n) := by
  unfold parameters
  split
  · split
    · exact ⟨List.suffix_refl _, rfl, by simp⟩
    · exact (parameterList_reads line 0 n _).within _
  · exact (parameterList_reads line 0 n _).within _

theorem routineHeading_reads (kind : Routine) (n : Nat) (ts : List Token) :
    (routineHeading endLine kind n ts).Gives fun heading next rest =>
      rest <:+ ts ∧ next = n ∧
        (AllSpelled ts → heading.1.IsName ∧ ∀ p ∈ heading.2, p.IsName) := by
  unfold routineHeading
  refine expect_gives.andThen ?_
  rintro name n₁ rest₁ - ⟨rfl, hi, rfl⟩
  refine expect_gives.andThen ?_
  rintro paren n₂ rest₂ - ⟨rfl, -, rfl⟩
  refine (parameters_reads name.line n₂ rest₂).andThen ?_
  rintro ps n₃ rest₃ - ⟨hs, rfl, hp⟩
  refine expect_gives.andThen ?_
  rintro close n₄ rest₄ - ⟨rfl, -, rfl⟩
  refine expect_gives.map ?_
  rintro brace n₅ rest₅ ⟨rfl, -, rfl⟩
  have front : rest₂ <:+ name :: paren :: rest₂ :=
    suffix_of_cons (List.suffix_cons _ _) (List.suffix_refl _)
  refine ⟨?_, rfl, ?_⟩
  · exact (suffix_of_cons hs (List.suffix_cons _ _)).trans front
  · intro ht
    exact ⟨ht.head hi, hp (ht.suffix front)⟩

/-- The members of a class, both kinds. -/
abbrev BuildsMembers (ts : List Token) (n : Nat) (ds : List FunctionDecl × List FunctionDecl)
    (next : Nat) (rest : List Token) : Prop :=
  Builds (fun ds => FunctionDecl.referencesAll ds.1 ++ FunctionDecl.referencesAll ds.2)
    (fun ds => FunctionDecl.ProperAll ds.1 ∧ FunctionDecl.ProperAll ds.2) ts n ds next rest

theorem BuildsBranch.stmt {ts rest : List Token} {n next : Nat} {s : Stmt}
    (h : BuildsBranch ts n s next rest) : BuildsStmt ts n s next rest :=
  ⟨h.suffix, h.numbered, fun ht => (h.shaped ht).1⟩

/-- A statement read behind a keyword is one of all the tokens. -/
theorem Builds.behind {α : Type} {refs : α → List Reference} {shape : α → Prop} {t : Token}
    {ts rest : List Token} {n next : Nat} {v : α} (h : Builds refs shape ts n v next rest) :
    Builds refs shape (t :: ts) n v next rest :=
  ⟨suffix_of_cons (List.suffix_refl _) h.suffix, h.numbered,
    fun ht => h.shaped (ht.suffix (List.suffix_cons _ _))⟩

mutual

theorem declaration_builds (n : Nat) (ts : List Token) :
    (declaration endLine n ts).Gives (BuildsStmt ts n) := by
  cases ts with
  | nil =>
    rw [declaration]
    exact (statement_builds n []).imp fun _ _ _ => BuildsBranch.stmt
  | cons t rest =>
    rw [declaration]
    split
    · refine (classHeading_builds n rest).andThen ?_
      rintro ⟨name, superclass⟩ n₁ rest₁ hl hh
      refine (members_builds n₁ rest₁).map ?_
      rintro ⟨methods, statics⟩ n₂ rest₂ hm
      refine Builds.behind ⟨hm.suffix.trans hh.suffix, ?_, ?_⟩
      · simp only [Stmt.references, identities_append, List.append_assoc]
        simpa using hh.numbered.append hm.numbered
      · intro ht
        have heading := hh.shaped ht
        have both := hm.shaped (ht.suffix hh.suffix)
        exact ⟨heading.1, heading.2, both.1, both.2⟩
    · split
      · refine (routine_builds .function n rest).map ?_
        rintro d n₁ rest₁ h
        refine Builds.behind ⟨h.suffix, ?_, ?_⟩
        · exact h.numbered
        · intro ht
          exact h.shaped ht
      · split
        · exact ((letDeclaration_builds n rest).within _).imp fun _ _ _ => Builds.behind
        · split
          · exact ((constDeclaration_builds n rest).within _).imp fun _ _ _ => Builds.behind
          · exact (statement_builds n (t :: rest)).imp fun _ _ _ => BuildsBranch.stmt
termination_by ts.length * 4 + 1
decreasing_by all_goals (try simp only [List.length_cons, List.length_nil]); omega

theorem statement_builds (n : Nat) (ts : List Token) :
    (statement endLine n ts).Gives (BuildsBranch ts n) := by
  cases ts with
  | nil =>
    rw [statement]
    exact expressionStatement_builds n []
  | cons t rest =>
    rw [statement]
    split
    · refine (forClauses_builds n rest).andThen ?_
      rintro ⟨initializer, condition, step⟩ n₁ rest₁ hl hc
      refine (statement_builds n₁ rest₁).map ?_
      rintro body n₂ rest₂ hb
      refine Builds.behind ⟨hb.suffix.trans hc.suffix, ?_, ?_⟩
      · have h := hc.numbered.append hb.numbered
        rw [← identities_append] at h
        exact h.perm ((forLoop_references_perm initializer condition step body).map _)
      · intro ht
        have hs := hb.shaped (ht.suffix hc.suffix)
        exact forLoop_proper (hc.shaped ht) hs.1 hs.2
    · split
      · refine (condition_reads _ n rest).andThen ?_
        rintro c n₁ rest₁ hl ⟨hs, ha⟩
        refine (statement_builds n₁ rest₁).andThen ?_
        rintro thenBranch n₂ rest₂ hl₂ ht
        refine (elseClause_builds n₂ rest₂).map ?_
        rintro elseBranch n₃ rest₃ he
        refine Builds.behind ⟨he.suffix.trans (ht.suffix.trans hs), ?_, ?_⟩
        · simp only [Stmt.references, identities_append]
          exact (ha.numbered.append ht.numbered).append he.numbered
        · intro h
          have h₁ := h.suffix hs
          have hthen := ht.shaped h₁
          have helse := he.shaped (h₁.suffix ht.suffix)
          rw [Stmt.Proper, Stmt.declared]
          refine ⟨⟨hthen.1, hthen.2, helse⟩, ?_⟩
          cases elseBranch with
          | none => simp [hthen.2, Stmt.declaredElse]
          | some s =>
            rw [Stmt.ProperElse] at helse
            simp [hthen.2, Stmt.declaredElse, helse.2]
      · split
        · refine (condition_reads _ n rest).andThen ?_
          rintro c n₁ rest₁ hl ⟨hs, ha⟩
          refine (statement_builds n₁ rest₁).map ?_
          rintro body n₂ rest₂ hb
          refine Builds.behind ⟨hb.suffix.trans hs, ?_, ?_⟩
          · simp only [Stmt.references, identities_append]
            exact ha.numbered.append hb.numbered
          · intro h
            have hbody := hb.shaped (h.suffix hs)
            rw [Stmt.Proper, Stmt.declared]
            exact ⟨hbody, hbody.2⟩
        · split
          · exact ((returnStatement_builds t n rest).within _).imp fun _ _ _ => Builds.behind
          · split
            · refine (block_builds n rest).map ?_
              rintro body n₁ rest₁ h
              refine Builds.behind ⟨h.suffix, ?_, ?_⟩
              · exact h.numbered
              · intro ht
                rw [Stmt.Proper, Stmt.declared]
                exact ⟨h.shaped ht, rfl⟩
            · split
              · exact ((printStatement_builds n rest).within _).imp fun _ _ _ => Builds.behind
              · exact expressionStatement_builds n (t :: rest)
termination_by ts.length * 4
decreasing_by all_goals (try simp only [List.length_cons]); omega

theorem elseClause_builds (n : Nat) (ts : List Token) :
    (elseClause endLine n ts).Gives (Builds Stmt.referencesOption Stmt.ProperElse ts n) := by
  have nothing : ∀ ts, Builds Stmt.referencesOption Stmt.ProperElse ts n none n ts := by
    intro ts
    refine ⟨List.suffix_refl _, ?_, ?_⟩
    · exact .nil n
    · intro _
      exact trivial
  cases ts with
  | nil =>
    rw [elseClause]
    exact nothing _
  | cons t rest =>
    rw [elseClause]
    split
    · refine (statement_builds n rest).map ?_
      rintro s n₁ rest₁ h
      refine Builds.behind ⟨h.suffix, ?_, ?_⟩
      · exact h.numbered
      · intro ht
        exact h.shaped ht
    · exact nothing _
termination_by ts.length * 4
decreasing_by simp only [List.length_cons]; omega

theorem block_builds (n : Nat) (ts : List Token) :
    (block endLine n ts).Gives (Builds Stmt.referencesAll Stmt.ProperAll ts n) := by
  cases ts with
  | nil =>
    rw [block]
    trivial
  | cons t rest =>
    rw [block]
    split
    · refine ⟨List.suffix_cons _ _, ?_, ?_⟩
      · exact .nil n
      · intro _
        exact trivial
    · refine (declaration_builds n (t :: rest)).recover.andThen ?_
      rintro first n₁ rest₁ hl hf
      refine (block_builds n₁ rest₁).map ?_
      rintro body n₂ rest₂ hb
      refine ⟨hb.suffix.trans hf.suffix, ?_, ?_⟩
      · rw [Stmt.referencesAll, identities_append]
        exact hf.numbered.append hb.numbered
      · intro ht
        exact ⟨hf.shaped ht, hb.shaped (ht.suffix hf.suffix)⟩
termination_by ts.length * 4 + 2
decreasing_by all_goals (simp only [List.length_cons] at *; omega)

theorem members_builds (n : Nat) (ts : List Token) :
    (members endLine n ts).Gives (BuildsMembers ts n) := by
  cases ts with
  | nil =>
    rw [members]
    trivial
  | cons t rest =>
    rw [members]
    split
    · refine ⟨List.suffix_cons _ _, ?_, ?_⟩
      · simp only [FunctionDecl.referencesAll, List.append_nil, identities_nil]
        exact .nil n
      · intro _
        simp [FunctionDecl.ProperAll]
    · split
      · refine (routine_builds .staticMethod n rest).andThen ?_
        rintro first n₁ rest₁ hl hf
        refine (members_builds n₁ rest₁).map ?_
        rintro ⟨methods, statics⟩ n₂ rest₂ hm
        refine Builds.behind ⟨hm.suffix.trans hf.suffix, ?_, ?_⟩
        · have h := hf.numbered.append hm.numbered
          rw [← identities_append] at h
          refine h.perm (List.Perm.map _ ?_)
          simp only [FunctionDecl.referencesAll, ← List.append_assoc]
          exact List.perm_append_comm.append_right _
        · intro ht
          have both := hm.shaped (ht.suffix hf.suffix)
          simp only [FunctionDecl.ProperAll]
          exact ⟨both.1, hf.shaped ht, both.2⟩
      · refine (routine_builds .method n (t :: rest)).andThen ?_
        rintro first n₁ rest₁ hl hf
        refine (members_builds n₁ rest₁).map ?_
        rintro ⟨methods, statics⟩ n₂ rest₂ hm
        refine ⟨hm.suffix.trans hf.suffix, ?_, ?_⟩
        · simp only [FunctionDecl.referencesAll, List.append_assoc, identities_append]
          simpa using hf.numbered.append hm.numbered
        · intro ht
          have both := hm.shaped (ht.suffix hf.suffix)
          simp only [FunctionDecl.ProperAll]
          exact ⟨⟨hf.shaped ht, both.1⟩, both.2⟩
termination_by ts.length * 4 + 1
decreasing_by all_goals (simp only [List.length_cons] at *; omega)

theorem routine_builds (kind : Routine) (n : Nat) (ts : List Token) :
    (routine endLine kind n ts).Gives
      (Builds FunctionDecl.references FunctionDecl.Proper ts n) := by
  rw [routine]
  refine (routineHeading_reads kind n ts).andThen ?_
  rintro ⟨name, ps⟩ n₁ rest₁ hl ⟨hs, rfl, hh⟩
  refine (block_builds n₁ rest₁).map ?_
  rintro body n₂ rest₂ hb
  refine ⟨hb.suffix.trans hs, ?_, ?_⟩
  · exact hb.numbered
  · intro ht
    exact ⟨(hh ht).1, (hh ht).2, hb.shaped (ht.suffix hs)⟩
termination_by ts.length * 4
decreasing_by omega

end

theorem read_builds (n : Nat) (ts : List Token) (h : (Listing.read endLine n ts).errors = []) :
    Numbered n (Listing.read endLine n ts).nextId
        (identities (Stmt.referencesAll (Listing.read endLine n ts).statements)) ∧
      (AllSpelled ts → Stmt.ProperAll (Listing.read endLine n ts).statements) := by
  cases ts with
  | nil =>
    rw [Listing.read]
    simp only [Stmt.referencesAll, Stmt.ProperAll]
    exact ⟨.nil n, fun _ => trivial⟩
  | cons t rest =>
    have first := @declaration_builds endLine n (t :: rest)
    rw [Listing.read] at h ⊢
    cases hd : declaration endLine n (t :: rest) with
    | failed error more hl => simp [hd] at h
    | done s n₁ more hl =>
      rw [hd] at first h
      obtain ⟨hn, hp⟩ := read_builds n₁ more h
      simp only [Stmt.referencesAll, Stmt.ProperAll, identities_append]
      refine ⟨first.numbered.append hn, ?_⟩
      intro ht
      exact ⟨first.shaped ht, hp (ht.suffix first.suffix)⟩
termination_by ts.length

end Rules

/-- What a source says, if it says a program: the references of the program have identities of their
own, and the program has the shape of one. -/
theorem parse_proper {source : List UInt8} {program : List Stmt} (h : parse source = .ok program) :
    (identities (Stmt.referencesAll program)).Nodup ∧ Stmt.ProperAll program := by
  unfold parse scan at h
  cases hs : tokens source with
  | error faults => rw [hs] at h; cases h
  | ok ts =>
    rw [hs] at h
    have spelled : AllSpelled (beforeEnd ts) := fun t ht =>
      tokens_spelled hs t ((List.takeWhile_prefix _).mem ht)
    have read := @read_builds (endLine ts) 0 (beforeEnd ts)
    simp only [Except.mapError, bind, Except.bind, Stmt.ofTokens, Listing.ofTokens] at h
    cases he : (Listing.read (endLine ts) 0 (beforeEnd ts)).errors with
    | cons error errors => simp [he] at h
    | nil =>
      simp only [he, Except.ok.injEq] at h
      subst h
      exact ⟨(read he).1.distinct, (read he).2 spelled⟩

end ClassScript
