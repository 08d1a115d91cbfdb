import ClassScript.Proofs.Syntax.Recognition

/-! Reading accepts exactly what the grammar derives, and gives the tree of the derivation. -/
namespace ClassScript.Grammar

/-- The symbols with which a statement may begin. -/
def statementStart : List Symbol :=
  .printWord :: .forWord :: .whileWord :: .ifWord :: .leftBrace :: .returnWord :: expressionStart

/-- The symbols with which a declaration may begin. -/
def declarationStart : List Symbol :=
  .classWord :: .functionWord :: .letWord :: .constWord :: statementStart

theorem expressionStart_subset : expressionStart ⊆ statementStart := by decide

theorem statementStart_subset : statementStart ⊆ declarationStart := by decide

theorem Phrase.Derives.begins_expression {e : Expr} {ts : List Token}
    (h : (Phrase.expression e).Derives ts) : Begins expressionStart ts := h.begins

theorem ExprStmt.begins {s : Stmt} {ts : List Token} (h : ExprStmt s ts) :
    Begins expressionStart ts := by
  cases h with
  | mk h ends => exact h.begins_expression.append _

theorem Sentence.Derives.begins_statement {dangling : Bool} {s : Stmt} {ts : List Token}
    (h : (Sentence.statement dangling s).Derives ts) : Begins statementStart ts := by
  cases h with
  | exprStmt h => exact h.begins.mono expressionStart_subset
  | printStmt h | forStmt h | whileStmt h | ifStmt h | ifElse h | block h | returnStmt h =>
    exact .of_is h (by decide)

theorem Sentence.Derives.begins_declaration {s : Stmt} {ts : List Token}
    (h : (Sentence.declaration s).Derives ts) : Begins declarationStart ts := by
  cases h with
  | statement h => exact h.begins_statement.mono statementStart_subset
  | letDecl h =>
    cases h with
    | mk isLet => exact .of_is isLet (by decide)
  | classDecl h | funDecl h | constDecl h => exact .of_is h (by decide)

theorem Sentence.Derives.begins_function {d : FunctionDecl} {ts : List Token}
    (h : (Sentence.function d).Derives ts) : Begins [.identifier] ts := by
  cases h with
  | function isName => exact .of_is isName (by decide)

theorem NoElse.of_begins {symbols : List Symbol} {ts : List Token} (h : Begins symbols ts)
    (hs : .elseWord ∉ symbols) : NoElse ts := by
  obtain ⟨t, more, rfl, ht⟩ := h
  simp [NoElse, ht.is_other hs]

theorem NoElse.of_is {s : Symbol} {t : Token} (h : t.is s) (hs : s ≠ .elseWord)
    (rest : List Token) : NoElse (t :: rest) := by
  simp [NoElse, Token.is_other h hs]

/-- No `else` stands behind a declaration, since none begins one. -/
theorem Sentence.Derives.noElse {ss : List Stmt} {ts rest : List Token}
    (h : (Sentence.declarations ss).Derives ts) (hr : NoElse rest) : NoElse (ts ++ rest) := by
  cases h with
  | noDeclarations => exact hr
  | declarations first =>
    exact .of_begins ((first.begins_declaration.append _).append _) (by decide)

section Clauses

variable {endLine : Nat}

/-- An expression is read in front of a token that ends one. -/
theorem Phrase.Derives.finds {e : Expr} {ts : List Token} (h : (Phrase.expression e).Derives ts)
    {s : Symbol} {t : Token} (ht : t.is s) (hs : s ∈ expressionEnd) (n : Nat)
    (rest : List Token) :
    (ClassScript.expression endLine n (ts ++ t :: rest)).Finds Expr.unnumbered e (t :: rest) :=
  h.found n (t :: rest) (.of_is ht hs 0 rest)

theorem Perhaps.finds {e : Option Expr} {ts : List Token} (h : Perhaps e ts) {stop : Symbol}
    {t : Token} (ht : t.is stop) (hs : stop ∈ expressionEnd) (n : Nat)
    (rest : List Token) :
    (optionalExpression endLine stop n (ts ++ t :: rest)).Finds (Option.map Expr.unnumbered) e
      (t :: rest) := by
  cases h with
  | none => simp [optionalExpression, ht, Reading.Finds]
  | @some e _ h =>
    have found : (expression endLine n (ts ++ t :: rest)).Finds Expr.unnumbered e (t :: rest) :=
      h.finds ht hs n rest
    obtain ⟨u, more, rfl, hu⟩ := h.begins_expression
    have other : u.is stop = false := by
      simp only [expressionEnd, List.mem_cons, List.not_mem_nil, or_false] at hs
      rcases hs with rfl | rfl | rfl <;> exact hu.is_other (by decide)
    rw [List.cons_append] at found ⊢
    simp only [optionalExpression, other, Bool.false_eq_true, if_false]
    refine found.map ?_
    rintro e' rfl
    rfl

theorem Initializer.finds {e : Option Expr} {ts : List Token} (h : Initializer e ts) {t : Token}
    (ht : t.is .semicolon) (n : Nat) (rest : List Token) :
    (letInitializer endLine n (ts ++ t :: rest)).Finds (Option.map Expr.unnumbered) e
      (t :: rest) := by
  cases h with
  | none => simp [letInitializer, Token.is_other ht (b := .equal) (by decide), Reading.Finds]
  | some isEqual h =>
    simp only [letInitializer, List.cons_append, isEqual, if_true]
    refine (h.finds ht (by decide) n rest).map ?_
    rintro e' rfl
    rfl

/-- What follows `let` is read as the declaration. -/
theorem LetDecl.finds {s : Stmt} {ts : List Token} (h : LetDecl s ts) :
    ∃ keyword us, ts = keyword :: us ∧ keyword.is .letWord ∧ ∀ n rest,
      (letDeclaration endLine n (us ++ rest)).Finds Stmt.unnumbered s rest := by
  cases h with
  | @mk keyword name semicolon e us isLet isName value ends =>
    refine ⟨keyword, name :: (us ++ [semicolon]), rfl, isLet, ?_⟩
    intro n rest
    rw [List.cons_append, List.append_assoc]
    unfold letDeclaration
    refine (expect_finds isName _ n _).andThen ?_
    rintro name' i hl rfl
    refine (value.finds ends i rest).andThen ?_
    rintro e' j hl' rfl
    refine (expect_finds ends _ j rest).map ?_
    rintro semicolon' -
    rw [Stmt.unnumbered]

theorem ExprStmt.finds {s : Stmt} {ts : List Token} (h : ExprStmt s ts) (n : Nat)
    (rest : List Token) :
    (expressionStatement endLine n (ts ++ rest)).Finds Stmt.unnumbered s rest := by
  cases h with
  | mk h ends =>
    rw [List.append_assoc]
    unfold expressionStatement
    refine (h.finds ends (by decide) n rest).andThen ?_
    rintro e' i hl rfl
    refine (expect_finds ends _ i rest).map ?_
    rintro semicolon' -
    rw [Stmt.unnumbered]

theorem ForInitializer.finds {s : Option Stmt} {ts : List Token} (h : ForInitializer s ts) (n : Nat)
    (rest : List Token) :
    (forInitializer endLine n (ts ++ rest)).Finds Stmt.unnumberedOption s rest := by
  cases h with
  | none ends => simp [forInitializer, ends, Reading.Finds, Stmt.unnumberedOption]
  | letDecl h =>
    obtain ⟨keyword, us, rfl, isLet, finds⟩ := LetDecl.finds h
    simp only [forInitializer, List.cons_append, Token.is_other isLet (b := .semicolon) (by decide),
      isLet, Bool.false_eq_true, if_false, if_true]
    refine (finds n rest).map ?_
    rintro s' rfl
    rw [Stmt.unnumberedOption]
  | exprStmt h =>
    have found : (expressionStatement endLine n (ts ++ rest)).Finds Stmt.unnumbered _ rest :=
      h.finds n rest
    obtain ⟨t, more, rfl, ht⟩ := h.begins
    rw [List.cons_append] at found ⊢
    simp only [forInitializer, ht.is_other (s := .semicolon) (by decide),
      ht.is_other (s := .letWord) (by decide), Bool.false_eq_true, if_false]
    refine found.map ?_
    rintro s' rfl
    rw [Stmt.unnumberedOption]

theorem ForClauses.finds {clauses : Option Stmt × Option Expr × Option Expr} {ts : List Token}
    (h : ForClauses clauses ts) (n : Nat) (rest : List Token) :
    (forClauses endLine n (ts ++ rest)).Finds (fun (initializer, condition, step) =>
      (Stmt.unnumberedOption initializer, condition.map Expr.unnumbered,
        step.map Expr.unnumbered)) clauses rest := by
  cases h with
  | @mk left semicolon right initializer condition step is cs ss isOpen first second isSemicolon
      third isClose =>
    have hts : left :: (is ++ (cs ++ semicolon :: (ss ++ [right]))) ++ rest =
      left :: (is ++ (cs ++ semicolon :: (ss ++ right :: rest))) := by simp
    rw [hts]
    unfold forClauses
    refine (expect_finds isOpen _ n _).andThen ?_
    rintro left' i₁ h₁ -
    refine (first.finds i₁ _).andThen ?_
    rintro initializer' i₂ h₂ rfl
    refine (second.finds isSemicolon (by decide) i₂ _).andThen ?_
    rintro condition' i₃ h₃ rfl
    refine (expect_finds isSemicolon _ i₃ _).andThen ?_
    rintro semicolon' i₄ h₄ -
    refine (third.finds isClose (by decide) i₄ rest).andThen ?_
    rintro step' i₅ h₅ rfl
    refine (expect_finds isClose _ i₅ rest).map ?_
    rintro right' -
    rfl

theorem Condition.finds {e : Expr} {ts : List Token} (h : Condition e ts) (missing : SyntaxFault)
    (n : Nat) (rest : List Token) :
    (condition endLine missing n (ts ++ rest)).Finds Expr.unnumbered e rest := by
  cases h with
  | mk isOpen h isClose =>
    rw [List.cons_append, List.append_assoc]
    unfold condition
    refine (expect_finds isOpen _ n _).andThen ?_
    rintro left' i hl -
    refine (h.finds isClose (by decide) i rest).andThen ?_
    rintro e' j hl' rfl
    refine (expect_finds isClose _ j rest).map ?_
    rintro right' -
    rfl

theorem Heritage.finds {e : Option Expr} {ts : List Token} (h : Heritage e ts) {t : Token}
    (ht : t.is .leftBrace) (n : Nat) (rest : List Token) :
    (superclassClause endLine n (ts ++ t :: rest)).Finds (Option.map Expr.unnumbered) e
      (t :: rest) := by
  cases h with
  | none =>
    simp [superclassClause, Token.is_other ht (b := .extendsWord) (by decide), Reading.Finds]
  | some isExtends isName =>
    simp only [superclassClause, List.cons_append, List.nil_append, isExtends, if_true]
    refine (expect_finds isName _ n _).andThen ?_
    rintro name' i hl rfl
    exact ⟨rfl, rfl⟩

theorem classHeading_finds {name left : Token} {superclass : Option Expr} {hs : List Token}
    (isName : name.is .identifier) (heritage : Heritage superclass hs) (isOpen : left.is .leftBrace)
    (n : Nat) (rest : List Token) :
    (classHeading endLine n (name :: (hs ++ left :: rest))).Finds
      (fun heading => (heading.1, heading.2.map Expr.unnumbered)) (name, superclass) rest := by
  unfold classHeading
  refine (expect_finds isName _ n _).andThen ?_
  rintro name' i hl rfl
  refine (heritage.finds isOpen i rest).andThen ?_
  rintro superclass' j hl' rfl
  refine (expect_finds isOpen _ j rest).map ?_
  rintro left' -
  rfl

theorem Parameters.finds {names ts : List Token} (h : Parameters names ts) {t : Token}
    (ht : t.is .rightParen) (line count n : Nat) (rest : List Token)
    (few : count + names.length ≤ 255) :
    (parameterList endLine line count n (ts ++ t :: rest)).Finds (fun names => names) names
      (t :: rest) := by
  induction h generalizing count n with
  | last isName =>
    have hcount : ¬ maxArguments ≤ count := by
      simp only [List.length_cons, List.length_nil, maxArguments] at *
      omega
    rw [List.singleton_append, parameterList]
    simp only [hcount, if_false]
    refine (expect_finds isName _ n _).andThen ?_
    rintro name' i hl rfl
    simp [Token.is_other ht (b := .comma) (by decide), Reading.Finds]
  | more isName isComma _ ih =>
    simp only [List.length_cons] at few
    have hcount : ¬ maxArguments ≤ count := by
      simp only [maxArguments]
      omega
    rw [List.cons_append, List.cons_append, parameterList]
    simp only [hcount, if_false]
    refine (expect_finds isName _ n _).andThen ?_
    rintro name' i hl rfl
    simp only [isComma, if_true]
    refine (ih (count + 1) i (by omega)).map ?_
    rintro names' rfl
    rfl

theorem ParametersOrNone.finds {names ts : List Token} (h : ParametersOrNone names ts) {t : Token}
    (ht : t.is .rightParen) (few : names.length ≤ 255) (line n : Nat) (rest : List Token) :
    (parameters endLine line n (ts ++ t :: rest)).Finds (fun names => names) names (t :: rest) := by
  cases h with
  | none => simp [parameters, ht, Reading.Finds]
  | some h =>
    have found : (parameterList endLine line 0 n (ts ++ t :: rest)).Finds (fun names => names) names
      (t :: rest) := h.finds ht line 0 n rest (by omega)
    obtain ⟨u, more, rfl, hu⟩ : ∃ u more, ts = u :: more ∧ u.is .identifier := by
      cases h with
      | last isName => exact ⟨_, _, rfl, isName⟩
      | more isName => exact ⟨_, _, rfl, isName⟩
    rw [List.cons_append] at found ⊢
    simp only [parameters, Token.is_other hu (b := .rightParen) (by decide), Bool.false_eq_true,
      if_false]
    exact found.within _

theorem routineHeading_finds {name left right leftBrace : Token} {params ps : List Token}
    (isName : name.is .identifier) (isOpen : left.is .leftParen) (h : ParametersOrNone params ps)
    (few : params.length ≤ 255) (isClose : right.is .rightParen)
    (isOpenBrace : leftBrace.is .leftBrace) (kind : Routine) (n : Nat) (rest : List Token) :
    (routineHeading endLine kind n (name :: left :: (ps ++ right :: leftBrace :: rest))).Finds
      (fun heading => heading) (name, params) rest := by
  unfold routineHeading
  refine (expect_finds isName _ n _).andThen ?_
  rintro name' i₁ h₁ rfl
  refine (expect_finds isOpen _ i₁ _).andThen ?_
  rintro left' i₂ h₂ -
  refine (h.finds isClose few _ i₂ _).andThen ?_
  rintro params' i₃ h₃ rfl
  refine (expect_finds isClose _ i₃ _).andThen ?_
  rintro right' i₄ h₄ -
  refine (expect_finds isOpenBrace _ i₄ rest).map ?_
  rintro leftBrace' -
  rfl

end Clauses

/-- The rule of a sentence finds it in front of tokens that do not go on with it. -/
def SentenceFound (endLine : Nat) : Sentence → List Token → Prop
  | .declaration s, ts => ∀ n rest, NoElse rest →
      (declaration endLine n (ts ++ rest)).Finds Stmt.unnumbered s rest
  | .statement dangling s, ts => ∀ n rest, (dangling → NoElse rest) →
      (statement endLine n (ts ++ rest)).Finds Stmt.unnumbered s rest
  | .declarations ss, ts => ∀ n right rest, right.is .rightBrace →
      (block endLine n (ts ++ right :: rest)).Finds Stmt.unnumberedAll ss rest
  | .members methods statics, ts => ∀ n right rest, right.is .rightBrace →
      (members endLine n (ts ++ right :: rest)).Finds
        (fun ds => (FunctionDecl.unnumberedAll ds.1, FunctionDecl.unnumberedAll ds.2))
        (methods, statics) rest
  | .function d, ts => ∀ kind n rest,
      (routine endLine kind n (ts ++ rest)).Finds FunctionDecl.unnumbered d rest

namespace SentenceFound

variable {endLine : Nat}

theorem function {name left right leftBrace rightBrace : Token} {params : List Token}
    {ss : List Stmt} {ps ts : List Token} (isName : name.is .identifier)
    (isOpen : left.is .leftParen) (h : ParametersOrNone params ps) (few : params.length ≤ 255)
    (isClose : right.is .rightParen) (isOpenBrace : leftBrace.is .leftBrace)
    (body : SentenceFound endLine (.declarations ss) ts)
    (isCloseBrace : rightBrace.is .rightBrace) :
    SentenceFound endLine (.function ⟨name, params, ss⟩)
      (name :: left :: (ps ++ right :: leftBrace :: (ts ++ [rightBrace]))) := by
  intro kind n rest
  have hts : name :: left :: (ps ++ right :: leftBrace :: (ts ++ [rightBrace])) ++ rest =
      name :: left :: (ps ++ right :: leftBrace :: (ts ++ rightBrace :: rest)) := by simp
  rw [hts, routine]
  refine (routineHeading_finds isName isOpen h few isClose isOpenBrace kind n _).andThen ?_
  rintro heading i hl rfl
  refine (body i rightBrace rest isCloseBrace).map ?_
  rintro ss' rfl
  rw [FunctionDecl.unnumbered]

theorem noMembers : SentenceFound endLine (.members [] []) [] := by
  intro n right rest isClose
  rw [List.nil_append, ClassScript.members]
  simp [isClose, Reading.Finds, FunctionDecl.unnumberedAll]

theorem method {d : FunctionDecl} {methods statics : List FunctionDecl} {ts us : List Token}
    (hd : (Sentence.function d).Derives ts) (h : SentenceFound endLine (.function d) ts)
    (more : SentenceFound endLine (.members methods statics) us) :
    SentenceFound endLine (.members (d :: methods) statics) (ts ++ us) := by
  intro n right rest isClose
  have found := h .method n (us ++ right :: rest)
  obtain ⟨t, ts, rfl, ht⟩ := hd.begins_function
  rw [List.append_assoc]
  rw [List.cons_append] at found ⊢
  rw [ClassScript.members]
  simp only [ht.is_other (s := .rightBrace) (by decide), ht.is_other (s := .staticWord) (by decide),
    Bool.false_eq_true, if_false]
  refine found.andThen ?_
  rintro d' i hl rfl
  refine (more i right rest isClose).map ?_
  rintro ⟨methods', statics'⟩ hm
  cases hm
  rw [FunctionDecl.unnumberedAll]

theorem staticMethod {keyword : Token} {d : FunctionDecl} {methods statics : List FunctionDecl}
    {ts us : List Token} (isStatic : keyword.is .staticWord)
    (h : SentenceFound endLine (.function d) ts)
    (more : SentenceFound endLine (.members methods statics) us) :
    SentenceFound endLine (.members methods (d :: statics)) (keyword :: (ts ++ us)) := by
  intro n right rest isClose
  rw [List.cons_append, List.append_assoc, ClassScript.members]
  simp only [Token.is_other isStatic (b := .rightBrace) (by decide), isStatic, Bool.false_eq_true,
    if_false, if_true]
  refine (h .staticMethod n _).andThen ?_
  rintro d' i hl rfl
  refine (more i right rest isClose).map ?_
  rintro ⟨methods', statics'⟩ hm
  cases hm
  simp [FunctionDecl.unnumberedAll]

theorem noDeclarations : SentenceFound endLine (.declarations []) [] := by
  intro n right rest isClose
  rw [List.nil_append, ClassScript.block]
  simp [isClose, Reading.Finds, Stmt.unnumberedAll]

theorem declarations {s : Stmt} {ss : List Stmt} {ts us : List Token}
    (hd : (Sentence.declaration s).Derives ts) (h : SentenceFound endLine (.declaration s) ts)
    (hmore : (Sentence.declarations ss).Derives us)
    (more : SentenceFound endLine (.declarations ss) us) :
    SentenceFound endLine (.declarations (s :: ss)) (ts ++ us) := by
  intro n right rest isClose
  have found := h n (us ++ right :: rest) (hmore.noElse (.of_is isClose (by decide) rest))
  obtain ⟨t, ts, rfl, ht⟩ := hd.begins_declaration
  rw [List.append_assoc]
  rw [List.cons_append] at found ⊢
  rw [ClassScript.block]
  simp only [ht.is_other (s := .rightBrace) (by decide), Bool.false_eq_true, if_false]
  refine found.recover.andThen ?_
  rintro s' i hl rfl
  refine (more i right rest isClose).map ?_
  rintro ss' rfl
  rw [Stmt.unnumberedAll]

theorem exprStmt {s : Stmt} {ts : List Token} (h : ExprStmt s ts) :
    SentenceFound endLine (.statement false s) ts := by
  intro n rest _
  have found : (expressionStatement endLine n (ts ++ rest)).Finds Stmt.unnumbered s rest :=
    h.finds n rest
  obtain ⟨t, ts, rfl, ht⟩ := h.begins
  rw [List.cons_append] at found ⊢
  rw [ClassScript.statement]
  simpa [ht.is_other (s := .forWord) (by decide), ht.is_other (s := .ifWord) (by decide),
    ht.is_other (s := .whileWord) (by decide), ht.is_other (s := .returnWord) (by decide),
    ht.is_other (s := .leftBrace) (by decide), ht.is_other (s := .printWord) (by decide)]
    using found

theorem printStmt {keyword semicolon : Token} {e : Expr} {ts : List Token}
    (isPrint : keyword.is .printWord) (h : (Phrase.expression e).Derives ts)
    (ends : semicolon.is .semicolon) :
    SentenceFound endLine (.statement false (.print e)) (keyword :: (ts ++ [semicolon])) := by
  intro n rest _
  have rule : ∀ us, statement endLine n (keyword :: us) = (printStatement endLine n us).within := by
    intro us
    rw [ClassScript.statement]
    simp [Token.is, Token.is_iff.mp isPrint]
  rw [List.cons_append, List.append_assoc, rule]
  refine Reading.Finds.within ?_ _
  unfold printStatement
  refine (h.finds ends (by decide) n rest).andThen ?_
  rintro e' i hl rfl
  refine (expect_finds ends _ i rest).map ?_
  rintro semicolon' -
  rw [Stmt.unnumbered]

theorem returnStmt {keyword semicolon : Token} {value : Option Expr} {ts : List Token}
    (isReturn : keyword.is .returnWord) (h : Perhaps value ts) (ends : semicolon.is .semicolon) :
    SentenceFound endLine (.statement false (.ret keyword value))
    (keyword :: (ts ++ [semicolon])) := by
  intro n rest _
  have rule : ∀ us, statement endLine n (keyword :: us) =
      (returnStatement endLine keyword n us).within := by
    intro us
    rw [ClassScript.statement]
    simp [Token.is, Token.is_iff.mp isReturn]
  rw [List.cons_append, List.append_assoc, rule]
  refine Reading.Finds.within ?_ _
  unfold returnStatement
  refine (h.finds ends (by decide) n rest).andThen ?_
  rintro value' i hl rfl
  refine (expect_finds ends _ i rest).map ?_
  rintro semicolon' -
  rw [Stmt.unnumbered]

theorem block {left right : Token} {ss : List Stmt} {ts : List Token} (isOpen : left.is .leftBrace)
    (body : SentenceFound endLine (.declarations ss) ts) (isClose : right.is .rightBrace) :
    SentenceFound endLine (.statement false (.block ss)) (left :: (ts ++ [right])) := by
  intro n rest _
  have rule : ∀ us, statement endLine n (left :: us) =
      (ClassScript.block endLine n us).map .block := by
    intro us
    rw [ClassScript.statement]
    simp [Token.is, Token.is_iff.mp isOpen]
  rw [List.cons_append, List.append_assoc, rule]
  refine (body n right rest isClose).map ?_
  rintro ss' rfl
  rw [Stmt.unnumbered]

theorem whileStmt {keyword : Token} {e : Expr} {dangling : Bool} {body : Stmt} {cs ts : List Token}
    (isWhile : keyword.is .whileWord) (condition : Condition e cs)
    (h : SentenceFound endLine (.statement dangling body) ts) :
    SentenceFound endLine (.statement dangling (.loop e body)) (keyword :: (cs ++ ts)) := by
  intro n rest hno
  rw [List.cons_append, List.append_assoc, ClassScript.statement]
  simp only [Token.is_other isWhile (b := .forWord) (by decide),
    Token.is_other isWhile (b := .ifWord) (by decide), isWhile, Bool.false_eq_true, if_false,
    if_true]
  refine (condition.finds _ n (ts ++ rest)).andThen ?_
  rintro e' i hl rfl
  refine (h i rest hno).map ?_
  rintro body' rfl
  rw [Stmt.unnumbered]

theorem forStmt {keyword : Token} {initializer : Option Stmt} {condition step : Option Expr}
    {dangling : Bool} {body : Stmt} {cs ts : List Token} (isFor : keyword.is .forWord)
    (clauses : ForClauses (initializer, condition, step) cs)
    (h : SentenceFound endLine (.statement dangling body) ts) :
    SentenceFound endLine (.statement dangling (preceded
      (.loop (condition.getD (.literal (.bool true))) (stepped body step)) initializer))
      (keyword :: (cs ++ ts)) := by
  intro n rest hno
  rw [List.cons_append, List.append_assoc, ClassScript.statement]
  simp only [isFor, if_true]
  refine (clauses.finds n (ts ++ rest)).andThen ?_
  rintro ⟨initializer', condition', step'⟩ i hl hclauses
  cases hclauses
  refine (h i rest hno).map ?_
  rintro body' rfl
  exact forLoop_unnumbered initializer' condition' step' body'

theorem ifStmt {keyword : Token} {e : Expr} {dangling : Bool} {body : Stmt} {cs ts : List Token}
    (isIf : keyword.is .ifWord) (condition : Condition e cs)
    (h : SentenceFound endLine (.statement dangling body) ts) :
    SentenceFound endLine (.statement true (.cond e body none)) (keyword :: (cs ++ ts)) := by
  intro n rest hno
  rw [List.cons_append, List.append_assoc, ClassScript.statement]
  simp only [Token.is_other isIf (b := .forWord) (by decide), isIf, Bool.false_eq_true, if_false,
    if_true]
  refine (condition.finds _ n (ts ++ rest)).andThen ?_
  rintro e' i hl rfl
  refine (h i rest fun _ => hno rfl).andThen ?_
  rintro body' j hl' rfl
  have none : (elseClause endLine j rest).Finds Stmt.unnumberedOption none rest := by
    cases rest with
    | nil =>
      rw [elseClause]
      exact ⟨rfl, rfl⟩
    | cons t more =>
      have ht : ¬ t.is .elseWord := hno rfl t rfl
      rw [elseClause]
      simp [ht, Reading.Finds, Stmt.unnumberedOption]
  refine none.map ?_
  intro elseBranch hnone
  rw [Stmt.unnumbered, hnone]

theorem ifElse {keyword separator : Token} {e : Expr} {dangling : Bool}
    {thenBranch elseBranch : Stmt} {cs ts us : List Token} (isIf : keyword.is .ifWord)
    (condition : Condition e cs) (first : SentenceFound endLine (.statement false thenBranch) ts)
    (isElse : separator.is .elseWord)
    (second : SentenceFound endLine (.statement dangling elseBranch) us) :
    SentenceFound endLine (.statement dangling (.cond e thenBranch (some elseBranch)))
      (keyword :: (cs ++ (ts ++ separator :: us))) := by
  intro n rest hno
  have hts : keyword :: (cs ++ (ts ++ separator :: us)) ++ rest =
      keyword :: (cs ++ (ts ++ separator :: (us ++ rest))) := by simp
  rw [hts, ClassScript.statement]
  simp only [Token.is_other isIf (b := .forWord) (by decide), isIf, Bool.false_eq_true, if_false,
    if_true]
  refine (condition.finds _ n _).andThen ?_
  rintro e' i hl rfl
  refine (first i (separator :: (us ++ rest)) (by simp)).andThen ?_
  rintro thenBranch' j hl' rfl
  have some : (elseClause endLine j (separator :: (us ++ rest))).Finds Stmt.unnumberedOption
      (some elseBranch) rest := by
    rw [elseClause]
    simp only [isElse, if_true]
    refine (second j rest hno).map ?_
    rintro elseBranch' rfl
    rw [Stmt.unnumberedOption]
  refine some.map ?_
  intro elseBranch' hsome
  rw [Stmt.unnumbered, hsome]

theorem statement {dangling : Bool} {s : Stmt} {ts : List Token}
    (hd : (Sentence.statement dangling s).Derives ts)
    (h : SentenceFound endLine (.statement dangling s) ts) :
    SentenceFound endLine (.declaration s) ts := by
  intro n rest hno
  have found := h n rest fun _ => hno
  obtain ⟨t, ts, rfl, ht⟩ := hd.begins_statement
  rw [List.cons_append] at found ⊢
  rw [declaration]
  simpa [ht.is_other (s := .classWord) (by decide), ht.is_other (s := .functionWord) (by decide),
    ht.is_other (s := .letWord) (by decide), ht.is_other (s := .constWord) (by decide)] using found

theorem letDecl {s : Stmt} {ts : List Token} (h : LetDecl s ts) :
    SentenceFound endLine (.declaration s) ts := by
  intro n rest _
  obtain ⟨keyword, us, rfl, isLet, finds⟩ := h.finds
  have rule : ∀ us, declaration endLine n (keyword :: us) =
    (letDeclaration endLine n us).within := by
    intro us
    rw [declaration]
    simp [Token.is, Token.is_iff.mp isLet]
  rw [List.cons_append, rule]
  exact (finds n rest).within _

theorem constDecl {keyword name equals semicolon : Token} {e : Expr} {ts : List Token}
    (isConst : keyword.is .constWord) (isName : name.is .identifier) (isEqual : equals.is .equal)
    (value : (Phrase.expression e).Derives ts) (ends : semicolon.is .semicolon) :
    SentenceFound endLine (.declaration (.constDecl name e))
      (keyword :: name :: equals :: (ts ++ [semicolon])) := by
  intro n rest _
  have rule : ∀ us, declaration endLine n (keyword :: us) =
      (constDeclaration endLine n us).within := by
    intro us
    rw [declaration]
    simp [Token.is, Token.is_iff.mp isConst]
  have hts : keyword :: name :: equals :: (ts ++ [semicolon]) ++ rest =
      keyword :: name :: equals :: (ts ++ semicolon :: rest) := by simp
  rw [hts, rule]
  refine Reading.Finds.within ?_ _
  unfold constDeclaration
  refine (expect_finds isName _ n _).andThen ?_
  rintro name' i₁ h₁ rfl
  refine (expect_finds isEqual _ i₁ _).andThen ?_
  rintro equals' i₂ h₂ -
  refine (value.finds ends (by decide) i₂ rest).andThen ?_
  rintro e' i₃ h₃ rfl
  refine (expect_finds ends _ i₃ rest).map ?_
  rintro semicolon' -
  rw [Stmt.unnumbered]

theorem funDecl {keyword : Token} {d : FunctionDecl} {ts : List Token}
    (isFunction : keyword.is .functionWord) (h : SentenceFound endLine (.function d) ts) :
    SentenceFound endLine (.declaration (.function d)) (keyword :: ts) := by
  intro n rest _
  rw [List.cons_append, declaration]
  simp only [Token.is_other isFunction (b := .classWord) (by decide), isFunction,
    Bool.false_eq_true, if_false, if_true]
  refine (h .function n rest).map ?_
  rintro d' rfl
  rw [Stmt.unnumbered]

theorem classDecl {keyword name left right : Token} {superclass : Option Expr}
    {methods statics : List FunctionDecl} {hs ts : List Token} (isClass : keyword.is .classWord)
    (isName : name.is .identifier) (heritage : Heritage superclass hs)
    (isOpen : left.is .leftBrace) (body : SentenceFound endLine (.members methods statics) ts)
    (isClose : right.is .rightBrace) :
    SentenceFound endLine (.declaration (.classDecl name superclass methods statics))
      (keyword :: name :: (hs ++ left :: (ts ++ [right]))) := by
  intro n rest _
  have hts : keyword :: name :: (hs ++ left :: (ts ++ [right])) ++ rest =
      keyword :: name :: (hs ++ left :: (ts ++ right :: rest)) := by simp
  rw [hts, declaration]
  simp only [isClass, if_true]
  refine (classHeading_finds isName heritage isOpen n _).andThen ?_
  rintro ⟨name', superclass'⟩ i hl hheading
  cases hheading
  refine (body i right rest isClose).map ?_
  rintro ⟨methods', statics'⟩ hbody
  cases hbody
  rw [Stmt.unnumbered]

end SentenceFound

theorem Sentence.Derives.found {endLine : Nat} {p : Sentence} {ts : List Token} (h : p.Derives ts) :
    SentenceFound endLine p ts := by
  induction h with
  | classDecl isClass isName heritage isOpen _ isClose ih =>
    exact .classDecl isClass isName heritage isOpen ih isClose
  | funDecl isFunction _ ih => exact .funDecl isFunction ih
  | letDecl h => exact .letDecl h
  | constDecl isConst isName isEqual value ends =>
    exact .constDecl isConst isName isEqual value ends
  | statement hd ih => exact .statement hd ih
  | exprStmt h => exact .exprStmt h
  | printStmt isPrint h ends => exact .printStmt isPrint h ends
  | forStmt isFor clauses _ ih => exact .forStmt isFor clauses ih
  | whileStmt isWhile condition _ ih => exact .whileStmt isWhile condition ih
  | ifStmt isIf condition _ ih => exact .ifStmt isIf condition ih
  | ifElse isIf condition _ isElse _ ihThen ihElse =>
    exact .ifElse isIf condition ihThen isElse ihElse
  | block isOpen _ isClose ih => exact .block isOpen ih isClose
  | returnStmt isReturn h ends => exact .returnStmt isReturn h ends
  | noDeclarations => exact .noDeclarations
  | declarations hd hmore ih ihMore => exact .declarations hd ih hmore ihMore
  | noMembers => exact .noMembers
  | method hd _ ih ihMore => exact .method hd ih ihMore
  | staticMethod isStatic _ _ ih ihMore => exact .staticMethod isStatic ih ihMore
  | function isName isOpen h few isClose isOpenBrace _ isCloseBrace ih =>
    exact .function isName isOpen h few isClose isOpenBrace ih isCloseBrace

theorem read_finds {endLine n : Nat} {ss : List Stmt} {ts : List Token}
    (h : (Sentence.declarations ss).Derives ts) :
    (Listing.read endLine n ts).errors = [] ∧
      Stmt.unnumberedAll (Listing.read endLine n ts).statements = ss := by
  induction ss generalizing ts n with
  | nil =>
    cases h
    rw [Listing.read]
    exact ⟨rfl, rfl⟩
  | cons s ss ih =>
    cases h with
    | @declarations _ _ ts us first more =>
      have noElse : NoElse (us ++ []) := more.noElse (by simp [NoElse])
      rw [List.append_nil] at noElse
      have found : (declaration endLine n (ts ++ us)).Finds Stmt.unnumbered s us :=
        first.found n us noElse
      obtain ⟨t, ts, rfl, -⟩ := first.begins_declaration
      rw [List.cons_append] at found ⊢
      rw [Listing.read]
      cases hd : declaration endLine n (t :: (ts ++ us)) with
      | failed => rw [hd] at found; exact found.elim
      | done s' i rest hl =>
        rw [hd] at found
        obtain ⟨rfl, rfl⟩ := found
        obtain ⟨noErrors, trees⟩ := @ih i rest more
        exact ⟨noErrors, by simp [Stmt.unnumberedAll, trees]⟩

theorem beforeEnd_append {ts : List Token} {eof : Token} (hts : ∀ t ∈ ts, ¬ t.is .endOfSource)
    (heof : eof.is .endOfSource) : beforeEnd (ts ++ [eof]) = ts := by
  unfold beforeEnd
  rw [List.takeWhile_append_of_pos (by simpa using hts)]
  simp [heof]

theorem program_iff {trees : List Stmt} {ts : List Token} {eof : Token}
    (heof : eof.is .endOfSource) :
    Program trees (ts ++ [eof]) ↔ (Sentence.declarations trees).Derives ts := by
  constructor
  · intro h
    generalize hts : ts ++ [eof] = all at h
    cases h with
    | mk h _ =>
      obtain ⟨rfl, -⟩ := List.append_inj' hts rfl
      exact h
  · exact fun h => .mk h heof

theorem program_read_iff (ts : List Token) (trees : List Stmt) :
    (Sentence.declarations trees).Derives (beforeEnd ts) ↔
      ∃ program, Stmt.ofTokens ts = .ok program ∧ Stmt.unnumberedAll program = trees := by
  simp only [Stmt.ofTokens, Listing.ofTokens]
  constructor
  · intro h
    obtain ⟨noErrors, htrees⟩ := read_finds h
    exact ⟨_, by rw [noErrors], htrees⟩
  · rintro ⟨program, hread, rfl⟩
    split at hread
    case h_1 noErrors =>
      cases hread
      exact read_derives 0 (beforeEnd ts) noErrors
    case h_2 => cases hread

theorem expression_read_iff (ts : List Token) (tree : Expr) :
    (Phrase.expression tree).Derives (beforeEnd ts) ↔
      ∃ e, Expr.ofTokens ts = .ok e ∧ e.unnumbered = tree := by
  unfold Expr.ofTokens
  constructor
  · intro h
    have found : (expression (endLine ts) 0 (beforeEnd ts ++ [])).Finds Expr.unnumbered tree [] :=
      h.found 0 [] (.nil 0)
    rw [List.append_nil] at found
    cases hread : expression (endLine ts) 0 (beforeEnd ts) with
    | failed => rw [hread] at found; exact found.elim
    | done e i rest hl =>
      rw [hread] at found
      obtain ⟨rfl, rfl⟩ := found
      exact ⟨e, rfl, rfl⟩
  · rintro ⟨e, hread, rfl⟩
    have derives := @expression_derives (endLine ts) 0 (beforeEnd ts)
    cases hexpr : expression (endLine ts) 0 (beforeEnd ts) with
    | failed => rw [hexpr] at hread; cases hread
    | done e' i rest hl =>
      rw [hexpr] at hread derives
      cases rest with
      | cons t rest => cases hread
      | nil =>
        cases hread
        obtain ⟨used, hused, h⟩ := derives
        rwa [hused, List.append_nil]

/-- Tokens in front of the end of the source say a program exactly if the grammar derives it from
them, and they say an expression exactly if the grammar derives that. What is read is the tree of
the derivation, up to the identities. -/
theorem read_iff_derived {ts : List Token} {eof : Token} (hts : ∀ t ∈ ts, ¬ t.is .endOfSource)
    (heof : eof.is .endOfSource) :
    (∀ trees, Program trees (ts ++ [eof]) ↔
      ∃ program, Stmt.ofTokens (ts ++ [eof]) = .ok program ∧
        Stmt.unnumberedAll program = trees) ∧
    (∀ tree, (Phrase.expression tree).Derives ts ↔
      ∃ e, Expr.ofTokens (ts ++ [eof]) = .ok e ∧ e.unnumbered = tree) := by
  have front := beforeEnd_append hts heof
  constructor
  · intro trees
    rw [program_iff heof, ← program_read_iff, front]
  · intro tree
    rw [← expression_read_iff, front]

namespace NestedCondition

def symbol (s : Symbol) (lexeme : String) : Token := ⟨.symbol s, lexeme, 1⟩

def name (lexeme : String) : Token := symbol .identifier lexeme

def opening : Token := symbol .leftParen "("

def closing : Token := symbol .rightParen ")"

def semicolon : Token := symbol .semicolon ";"

/-- `if (a) if (b) f.x = c; else -d;` -/
def source : List Token :=
  [symbol .ifWord "if", opening, name "a", closing, symbol .ifWord "if", opening, name "b", closing,
    name "f", symbol .dot ".", name "x", symbol .equal "=", name "c", semicolon,
    symbol .elseWord "else", symbol .minus "-", name "d", semicolon]

def endOfSource : Token := symbol .endOfSource ""

/-- The `else` belongs to the inner condition. -/
def tree : Stmt :=
  .cond (.var 0 (name "a"))
    (.cond (.var 0 (name "b"))
      (.expr (.setProperty (.var 0 (name "f")) (name "x") (.var 0 (name "c"))))
      (some (.expr (.unary (symbol .minus "-") (.var 0 (name "d"))))))
    none

theorem programs_derived :
    (∀ t ∈ source, ¬ t.is .endOfSource) ∧ endOfSource.is .endOfSource ∧
      (∀ trees, Program trees (source ++ [endOfSource]) ↔ trees = [tree]) ∧
      ∀ e, ¬ (Phrase.expression e).Derives source := by
  have hts : ∀ t ∈ source, ¬ t.is .endOfSource := by decide
  have heof : endOfSource.is .endOfSource := rfl
  obtain ⟨programs, expressions⟩ := read_iff_derived hts heof
  refine ⟨hts, heof, ?_, ?_⟩
  · intro trees
    obtain ⟨program, read, htree⟩ : ∃ program,
        Stmt.ofTokens (source ++ [endOfSource]) = .ok program ∧
          Stmt.unnumberedAll program = [tree] :=
            ⟨_, by with_unfolding_all rfl, by with_unfolding_all rfl⟩
    rw [programs trees, read]
    constructor
    · rintro ⟨program', hp, rfl⟩
      cases hp
      exact htree
    · rintro rfl
      exact ⟨program, rfl, htree⟩
  · intro e h
    obtain ⟨e', read, -⟩ := (expressions e).mp h
    have fails : ∃ error, Expr.ofTokens (source ++ [endOfSource]) = .error error :=
      ⟨_, by with_unfolding_all rfl⟩
    obtain ⟨error, herror⟩ := fails
    rw [herror] at read
    cases read

end NestedCondition

end ClassScript.Grammar
