import ClassScript.Proofs.Syntax.Positions
import ClassScript.Proofs.Syntax.Segments

/-! The rules of the parser and the readings of the grammar. From every position a rule goes the way
of its reading, if it does not begin behind a literal at the end and may come back to itself often
enough. How often that is, the number of tokens that are left says. -/
namespace ClassScript.Parser

open Grammar

variable {ts rest : List Token} {r : Rules} {d : Nat}

/-- The rules go the way of the readings wherever so many calls of one by another are enough. -/
structure Tracking (ts : List Token) (r : Rules) (d : Nat) : Prop where
  expression : ∀ n rest, Ready ts rest → 4 * rest.length + 1 < d →
    Tracks ts (Left ts) (fun e => e) (ClassScript.expression (endLine ts) n rest) r.expression
      (standing ts rest n)
  operatorChain : ∀ level tighter left n rest, Left ts rest → 4 * rest.length < d →
    Tracks ts (Left ts) (fun e => e)
      (ClassScript.operatorChain (endLine ts) level tighter left n rest)
      (r.operatorChain level tighter left) (standing ts rest n)
  unary : ∀ n rest, Ready ts rest → 4 * rest.length < d →
    Tracks ts (Left ts) (fun e => e) (ClassScript.unary (endLine ts) n rest) r.unary
      (standing ts rest n)
  suffixes : ∀ e n rest, Left ts rest → 4 * rest.length < d →
    Tracks ts (Left ts) (fun e => e) (ClassScript.suffixes (endLine ts) e n rest) (r.suffixes e)
      (standing ts rest n)
  /-- The arguments in front and those of the reading are those of the call. -/
  argumentList : ∀ callee front n rest, Ready ts rest → 4 * rest.length + 2 < d →
    Tracks ts (Left ts) (fun v => Expr.call callee v.2 (front ++ v.1))
      (ClassScript.argumentList (endLine ts) front.length n rest)
      (do
        let arguments ← r.argumentList front
        let paren ← consume .rightParen .argumentsClose
        return Expr.call callee paren arguments)
      (standing ts rest n)
  statement : ∀ n rest, Ready ts rest → 4 * rest.length + 2 < d →
    Tracks ts (Left ts) (fun s => s) (ClassScript.statement (endLine ts) n rest) r.statement
      (standing ts rest n)
  /-- The declarations in front and those of the reading are those of the block. -/
  declarations : ∀ front n rest, Left ts rest → 4 * rest.length + 3 < d →
    Tracks ts (Left ts) (fun body => front ++ body) (ClassScript.block (endLine ts) n rest)
      (do
        let body ← r.declarations front
        let _ ← consume .rightBrace .blockClose
        return body)
      (standing ts rest n)
  /-- The members in front and those of the reading are those of the class. -/
  members : ∀ name superclass front n rest, Left ts rest → 4 * rest.length < d →
    Tracks ts (Left ts)
      (fun found => Stmt.classDecl name superclass (front.1 ++ found.1) (front.2 ++ found.2))
      (ClassScript.members (endLine ts) n rest)
      (do
        let found ← r.members front
        let _ ← consume .rightBrace .classClose
        return Stmt.classDecl name superclass found.1 found.2)
      (standing ts rest n)

section Expressions

/-- What a symbol stands behind is no literal. -/
theorem ready_of_any {symbols : List Symbol} {t : Token} (h : Left ts (t :: rest))
    (ht : symbols.any t.is) : Ready ts rest := by
  obtain ⟨s, -, his⟩ := List.any_eq_true.mp ht
  exact h.ready_behind his

theorem isUnaryOperator_eq (t : Token) :
    isUnaryOperator t = [Symbol.bang, .doubleBang, .minus].any t.is := by
  simp [isUnaryOperator, Bool.or_assoc]

theorem assign_tracks (target value : Expr) (line n : Nat) (h : Left ts rest) {m : Nat}
    (hlt : rest.length < m) :
    Tracks ts (Left ts) (fun e => e)
      (match target.assigned? value n with
        | some (e, next) => Reading.done e next rest hlt
        | none => .failed ⟨.assignmentTarget, line⟩ rest (Nat.le_of_lt hlt))
      (assign target value line) (standing ts rest n) := by
  cases target with
  | var id name => exact ⟨h, rfl⟩
  | property object name => exact ⟨h, rfl⟩
  | _ => exact ⟨h, n, rfl⟩

theorem operators_tracks (tracking : Tracking ts r d) (levels : List Level) (n : Nat)
    (h : Ready ts rest) (hd : 4 * rest.length < d) :
    Tracks ts (Left ts) (fun e => e) (ClassScript.operators (endLine ts) levels n rest)
      (operators r levels) (standing ts rest n) := by
  induction levels with
  | nil =>
    rw [ClassScript.operators, operators]
    exact tracking.unary n rest h hd
  | cons level tighter ih =>
    rw [ClassScript.operators, operators]
    refine ih.bind ?_
    intro left n₁ rest₁ hl hleft
    exact (tracking.operatorChain level tighter left n₁ rest₁ hleft (by omega)).within _

theorem operatorChain_tracks (hts : ts ≠ []) (tracking : Tracking ts r d) (level : Level)
    (tighter : List Level) (left : Expr) (n : Nat) (h : Left ts rest) (hd : 4 * rest.length ≤ d) :
    Tracks ts (Left ts) (fun e => e)
      (ClassScript.operatorChain (endLine ts) level tighter left n rest)
      (operatorChain r level tighter left) (standing ts rest n) := by
  rw [operatorChain]
  cases rest with
  | nil =>
    rw [ClassScript.operatorChain]
    exact .skip (checkAny_nil hts _) (.pure h rfl)
  | cons operator rest =>
    rw [List.length_cons] at hd
    rw [ClassScript.operatorChain]
    refine .branch (checkAny_cons h _) (fun ho => ?_) fun _ => .pure h rfl
    refine .step (advance_cons h) ?_
    refine (operators_tracks tracking tighter n (ready_of_any h ho) (by omega)).bind ?_
    intro right n₁ rest₁ hl hleft
    exact (tracking.operatorChain level tighter _ n₁ rest₁ hleft (by omega)).within _

theorem expression_tracks (hts : ts ≠ []) (tracking : Tracking ts r d) (n : Nat) (h : Ready ts rest)
    (hd : 4 * rest.length + 1 ≤ d) :
    Tracks ts (Left ts) (fun e => e) (ClassScript.expression (endLine ts) n rest) (expression r)
      (standing ts rest n) := by
  rw [ClassScript.expression, expression]
  refine (operators_tracks tracking levels n h hd).bind ?_
  intro target n₁ rest₁ hl hleft
  cases rest₁ with
  | nil => exact .skip (accept_nil hts _) (.pure hleft rfl)
  | cons equals more =>
    have shorter : more.length < rest.length := Nat.lt_of_succ_lt hl
    refine .accept hleft (fun he => ?_) fun _ => .pure hleft rfl
    refine .step (previous_behind hleft) ?_
    refine (tracking.expression n₁ more (hleft.ready_behind he) (by omega)).bind ?_
    intro value n₂ rest₂ hl₂ hleft₂
    exact assign_tracks target value equals.line n₂ hleft₂ _

theorem argumentList_tracks (hts : ts ≠ []) (tracking : Tracking ts r d) (callee : Expr)
    (front : List Expr) (n : Nat) (h : Ready ts rest) (hd : 4 * rest.length + 2 ≤ d) :
    Tracks ts (Left ts) (fun v => Expr.call callee v.2 (front ++ v.1))
      (ClassScript.argumentList (endLine ts) front.length n rest)
      (do
        let arguments ← argumentList r front
        let paren ← consume .rightParen .argumentsClose
        return Expr.call callee paren arguments)
      (standing ts rest n) := by
  rw [ClassScript.argumentList, argumentList]
  split
  · exact (Fails.peek hts h.1 .tooManyArguments n).bind _
  · rw [bind_assoc]
    refine (tracking.expression n rest h hd).bind ?_
    intro argument n₁ rest₁ hl hleft
    rw [choice_bind]
    have count : (front ++ [argument]).length = front.length + 1 := by simp
    cases rest₁ with
    | nil =>
      refine .skip (accept_nil hts _) ?_
      rw [pure_bind]
      exact (Fails.consume hts hleft nofun _ _).bind _
    | cons t more =>
      have shorter : more.length < rest.length := Nat.lt_of_succ_lt hl
      refine .accept hleft (fun ht => ?_) fun _ => ?_
      · have later := tracking.argumentList callee (front ++ [argument]) n₁ more
          (hleft.ready_behind ht) (by omega)
        rw [count] at later
        exact later.mapped fun v => by simp
      · rw [pure_bind]
        split
        case isTrue ht => exact .consumed hleft ht (.pure hleft.behind rfl)
        case isFalse ht => exact (Fails.consume hts hleft (by simpa using ht) _ _).bind _

theorem finishCall_tracks (hts : ts ≠ []) (tracking : Tracking ts r d) (callee : Expr) (n : Nat)
    (h : Ready ts rest) (hd : 4 * rest.length + 2 < d) :
    Tracks ts (Left ts) (fun v => Expr.call callee v.2 v.1)
      (ClassScript.arguments (endLine ts) n rest) (finishCall r callee) (standing ts rest n) := by
  rw [finishCall, arguments, choice_bind]
  cases rest with
  | nil =>
    rw [ClassScript.arguments]
    exact .skip (check_nil hts _) (tracking.argumentList callee [] n [] h hd)
  | cons t rest =>
    rw [ClassScript.arguments]
    refine .branch (check_cons h.1 _) (fun ht => ?_) fun _ => ?_
    · rw [pure_bind]
      exact .consumed h.1 ht (.pure h.1.behind rfl)
    · exact tracking.argumentList callee [] n (t :: rest) h hd

theorem suffixes_tracks (hts : ts ≠ []) (tracking : Tracking ts r d) (e : Expr) (n : Nat)
    (h : Left ts rest) (hd : 4 * rest.length ≤ d) :
    Tracks ts (Left ts) (fun e => e) (ClassScript.suffixes (endLine ts) e n rest) (suffixes r e)
      (standing ts rest n) := by
  rw [suffixes]
  cases rest with
  | nil =>
    rw [ClassScript.suffixes]
    exact .skip (accept_nil hts _) (.skip (accept_nil hts _) (.pure h rfl))
  | cons t rest =>
    rw [List.length_cons] at hd
    rw [ClassScript.suffixes]
    refine .accept h (fun ht => ?_) fun _ => .accept h (fun ht => ?_) fun _ => .pure h rfl
    · refine (finishCall_tracks hts tracking e n (h.ready_behind ht) (by omega)).bind ?_
      rintro ⟨es, paren⟩ n₁ rest₁ hl hleft
      exact (tracking.suffixes (.call e paren es) n₁ rest₁ hleft (by omega)).within _
    · refine (Tracks.consume hts h.behind _ _ n).bind ?_
      intro name n₁ rest₁ hl hready
      exact (tracking.suffixes (.property e name) n₁ rest₁ hready.1 (by omega)).within _

theorem nonLiteral_tracks (hts : ts ≠ []) (tracking : Tracking ts r d) (n : Nat) {t : Token}
    (h : Left ts (t :: rest)) {s : Symbol} (hk : t.kind = .symbol s)
    (hs : s ∉ [Symbol.falseWord, .trueWord, .nullWord]) (hd : 4 * rest.length + 1 < d) :
    Tracks ts (Left ts) (fun e => e) (ClassScript.primary (endLine ts) n (t :: rest)) (nonLiteral r)
      (standing ts (t :: rest) n) := by
  have isSymbol : t.is s := Token.is_iff.mpr hk
  have other : ∀ {s' : Symbol}, s ≠ s' → t.is s' = false := Token.is_other isSymbol
  by_cases hstart : s ∈ [Symbol.thisWord, .superWord, .identifier, .leftParen]
  · rw [ClassScript.primary, nonLiteral]
    simp only [hk]
    simp only [List.mem_cons, List.not_mem_nil, or_false] at hstart
    rcases hstart with rfl | rfl | rfl | rfl
    · refine .accepted h isSymbol ?_
      exact .step (freshId_runs rest n) (.step (previous_behind h) (.pure h.behind rfl))
    · refine .declined h (other (by decide)) (.accepted h isSymbol ?_)
      refine .step (previous_behind h) ?_
      refine (Tracks.consume hts h.behind _ _ n).bind ?_
      intro dot n₁ rest₁ _ hready₁
      refine (Tracks.consume hts hready₁.1 _ _ n₁).bind ?_
      intro name n₂ rest₂ _ hready₂
      exact .step (freshId_runs rest₂ n₂) (.pure hready₂.1 rfl)
    · refine .declined h (other (by decide))
        (.declined h (other (by decide)) (.accepted h isSymbol ?_))
      exact .step (freshId_runs rest n) (.step (previous_behind h) (.pure h.behind rfl))
    · refine .declined h (other (by decide)) (.declined h (other (by decide))
        (.declined h (other (by decide)) (.accepted h isSymbol ?_)))
      refine (tracking.expression n rest (h.ready_behind isSymbol) hd).bind ?_
      intro inner n₁ rest₁ _ hleft₁
      refine ((Tracks.consume hts hleft₁ _ _ n₁).map ?_).imp fun _ => And.left
      exact fun _ => rfl
  · have neither : ∀ {s' : Symbol}, s' ∈ [Symbol.thisWord, .superWord, .identifier, .leftParen] →
        t.is s' = false := fun hm => other fun hss => hstart (hss ▸ hm)
    have refused : s ∉ primaryStart :=
      fun hm => (List.mem_append (s := [_, _, _]).mp hm).elim hs hstart
    rw [primary_refused hk refused, nonLiteral]
    refine .declined h (neither (by decide)) (.declined h (neither (by decide))
      (.declined h (neither (by decide)) (.declined h (neither (by decide)) ?_)))
    exact Fails.peek hts h .expression n

theorem primary_tracks (hts : ts ≠ []) (tracking : Tracking ts r d) (n : Nat) (h : Ready ts rest)
    (hd : 4 * rest.length ≤ d) :
    Tracks ts (Left ts) (fun e => e) (ClassScript.primary (endLine ts) n rest) (primary r)
      (standing ts rest n) := by
  obtain ⟨h, noLiteral⟩ := h
  cases rest with
  | nil =>
    have skipped := accept_nil (n := n) hts
    obtain ⟨t, hpeek, hline, isEnd⟩ := peek_nil hts n
    -- A literal seen here would be taken a second time. But what is seen is the end of the source
    -- or the last token, and this rule does not begin behind a literal.
    obtain ⟨s, hk⟩ : ∃ s, t.kind = .symbol s := by
      rcases isEnd with isEnd | ⟨whole, hlast⟩
      · exact ⟨_, Token.is_iff.mp isEnd⟩
      · exact noLiteral rfl t (whole.symm ▸ hlast)
    rw [ClassScript.primary, primary]
    refine .skip (skipped _) (.skip (skipped _) (.skip (skipped _) (.step hpeek ?_)))
    simp only [hk]
    rw [nonLiteral]
    refine .skip (skipped _) (.skip (skipped _) (.skip (skipped _) (.skip (skipped _) ?_)))
    exact Fails.peek hts h .expression n
  | cons t rest =>
    rw [List.length_cons] at hd
    cases hk : t.kind with
    | number value | string text =>
      have other : ∀ s, t.is s = false := by
        intro s
        simp [Token.is, hk]
      rw [ClassScript.primary, primary]
      simp only [hk]
      refine .declined h (other _) (.declined h (other _)
        (.declined h (other _) (.step (peek_cons h) ?_)))
      simp only [hk]
      exact .step (advance_cons h) (.pure h.behind rfl)
    | symbol s =>
      have isSymbol : t.is s := Token.is_iff.mpr hk
      have other : ∀ {s' : Symbol}, s ≠ s' → t.is s' = false := Token.is_other isSymbol
      by_cases hs : s ∈ [Symbol.falseWord, .trueWord, .nullWord]
      · rw [ClassScript.primary, primary]
        simp only [hk]
        simp only [List.mem_cons, List.not_mem_nil, or_false] at hs
        rcases hs with rfl | rfl | rfl
        · exact .accepted h isSymbol (.pure h.behind rfl)
        · exact .declined h (other (by decide)) (.accepted h isSymbol (.pure h.behind rfl))
        · exact .declined h (other (by decide)) (.declined h (other (by decide))
            (.accepted h isSymbol (.pure h.behind rfl)))
      · rw [primary]
        have neither : ∀ {s' : Symbol}, s' ∈ [Symbol.falseWord, .trueWord, .nullWord] →
            t.is s' = false := fun hm => other fun hss => hs (hss ▸ hm)
        refine .declined h (neither (by decide)) (.declined h (neither (by decide))
          (.declined h (neither (by decide)) (.step (peek_cons h) ?_)))
        simp only [hk]
        exact nonLiteral_tracks hts tracking n h hk hs (by omega)

theorem postfixed_tracks (hts : ts ≠ []) (tracking : Tracking ts r d) (n : Nat) (h : Ready ts rest)
    (hd : 4 * rest.length ≤ d) :
    Tracks ts (Left ts) (fun e => e) (ClassScript.postfixed (endLine ts) n rest)
      (primary r >>= suffixes r) (standing ts rest n) := by
  rw [ClassScript.postfixed]
  refine (primary_tracks hts tracking n h hd).bind ?_
  intro e n₁ rest₁ hl hleft
  exact (suffixes_tracks hts tracking e n₁ hleft (by omega)).within _

theorem unary_tracks (hts : ts ≠ []) (tracking : Tracking ts r d) (n : Nat) (h : Ready ts rest)
    (hd : 4 * rest.length ≤ d) :
    Tracks ts (Left ts) (fun e => e) (ClassScript.unary (endLine ts) n rest) (unary r)
      (standing ts rest n) := by
  rw [unary]
  cases rest with
  | nil =>
    rw [ClassScript.unary]
    exact .skip (acceptAny_nil hts _) (postfixed_tracks hts tracking n h hd)
  | cons operator rest =>
    rw [ClassScript.unary, isUnaryOperator_eq]
    refine .branch (acceptAny_cons h.1 _) (fun ho => ?_) fun ho => ?_
    · rw [if_pos ho]
      refine .step (previous_behind h.1) ?_
      rw [List.length_cons] at hd
      exact (tracking.unary n rest (ready_of_any h.1 ho) (by omega)).map fun _ => rfl
    · rw [if_neg ho]
      exact postfixed_tracks hts tracking n h hd

end Expressions

section Statements

theorem optionalExpression_tracks (hts : ts ≠ []) (tracking : Tracking ts r d) (stop : Symbol)
    (n : Nat) (h : Ready ts rest) (hd : 4 * rest.length + 1 < d) :
    Tracks ts (Left ts) (fun e => e) (ClassScript.optionalExpression (endLine ts) stop n rest)
      (optionalExpression r stop) (standing ts rest n) := by
  rw [optionalExpression]
  cases rest with
  | nil =>
    rw [ClassScript.optionalExpression]
    exact .skip (check_nil hts _) ((tracking.expression n [] h hd).map fun _ => rfl)
  | cons t rest =>
    rw [ClassScript.optionalExpression]
    refine .branch (check_cons h.1 _) (fun _ => .pure h.1 rfl) fun _ => ?_
    exact (tracking.expression n (t :: rest) h hd).map fun _ => rfl

theorem letInitializer_tracks (hts : ts ≠ []) (tracking : Tracking ts r d) (n : Nat)
    (h : Left ts rest) (hd : 4 * rest.length < d) :
    Tracks ts (Left ts) (fun e => e) (ClassScript.letInitializer (endLine ts) n rest)
      (letInitializer r) (standing ts rest n) := by
  rw [letInitializer]
  cases rest with
  | nil =>
    rw [ClassScript.letInitializer]
    exact .skip (accept_nil hts _) (.pure h rfl)
  | cons t rest =>
    rw [ClassScript.letInitializer]
    rw [List.length_cons] at hd
    refine .accept h (fun ht => ?_) fun _ => .pure h rfl
    exact (tracking.expression n rest (h.ready_behind ht) (by omega)).map fun _ => rfl

theorem letDeclaration_tracks (hts : ts ≠ []) (tracking : Tracking ts r d) (n : Nat)
    (h : Left ts rest) (hd : 4 * rest.length < d) :
    Tracks ts (Ready ts) (fun s => s) (ClassScript.letDeclaration (endLine ts) n rest)
      (letDeclaration r) (standing ts rest n) := by
  rw [ClassScript.letDeclaration, letDeclaration]
  refine (Tracks.consume hts h _ _ n).bind ?_
  intro name n₁ rest₁ _ hready₁
  refine (letInitializer_tracks hts tracking n₁ hready₁.1 (by omega)).bind ?_
  intro initializer n₂ rest₂ _ hleft₂
  exact (Tracks.consume hts hleft₂ _ _ n₂).map fun _ => rfl

theorem constDeclaration_tracks (hts : ts ≠ []) (tracking : Tracking ts r d) (n : Nat)
    (h : Left ts rest) (hd : 4 * rest.length < d) :
    Tracks ts (Ready ts) (fun s => s) (ClassScript.constDeclaration (endLine ts) n rest)
      (constDeclaration r) (standing ts rest n) := by
  rw [ClassScript.constDeclaration, constDeclaration]
  refine (Tracks.consume hts h _ _ n).bind ?_
  intro name n₁ rest₁ _ hready₁
  refine (Tracks.consume hts hready₁.1 _ _ n₁).bind ?_
  intro equals n₂ rest₂ _ hready₂
  refine (tracking.expression n₂ rest₂ hready₂ (by omega)).bind ?_
  intro value n₃ rest₃ _ hleft₃
  exact (Tracks.consume hts hleft₃ _ _ n₃).map fun _ => rfl

theorem expressionStatement_tracks (hts : ts ≠ []) (tracking : Tracking ts r d) (n : Nat)
    (h : Ready ts rest) (hd : 4 * rest.length + 1 < d) :
    Tracks ts (Ready ts) (fun s => s) (ClassScript.expressionStatement (endLine ts) n rest)
      (expressionStatement r) (standing ts rest n) := by
  rw [ClassScript.expressionStatement, expressionStatement]
  refine (tracking.expression n rest h hd).bind ?_
  intro e n₁ rest₁ _ hleft₁
  exact (Tracks.consume hts hleft₁ _ _ n₁).map fun _ => rfl

theorem printStatement_tracks (hts : ts ≠ []) (tracking : Tracking ts r d) (n : Nat)
    (h : Ready ts rest) (hd : 4 * rest.length + 1 < d) :
    Tracks ts (Ready ts) (fun s => s) (ClassScript.printStatement (endLine ts) n rest)
      (printStatement r) (standing ts rest n) := by
  rw [ClassScript.printStatement, printStatement]
  refine (tracking.expression n rest h hd).bind ?_
  intro e n₁ rest₁ _ hleft₁
  exact (Tracks.consume hts hleft₁ _ _ n₁).map fun _ => rfl

theorem returnStatement_tracks (hts : ts ≠ []) (tracking : Tracking ts r d) {keyword : Token}
    (n : Nat) (h : Left ts (keyword :: rest)) (isReturn : keyword.is .returnWord)
    (hd : 4 * rest.length + 1 < d) :
    Tracks ts (Ready ts) (fun s => s) (ClassScript.returnStatement (endLine ts) keyword n rest)
      (returnStatement r) (standing ts rest n) := by
  rw [ClassScript.returnStatement, returnStatement]
  refine .step (previous_behind h) ?_
  refine (optionalExpression_tracks hts tracking _ n (h.ready_behind isReturn) hd).bind ?_
  intro value n₁ rest₁ _ hleft₁
  exact (Tracks.consume hts hleft₁ _ _ n₁).map fun _ => rfl

theorem forInitializer_tracks (hts : ts ≠ []) (tracking : Tracking ts r d) (n : Nat)
    (h : Ready ts rest) (hd : 4 * rest.length + 1 < d) :
    Tracks ts (Ready ts) (fun s => s) (ClassScript.forInitializer (endLine ts) n rest)
      (forInitializer r) (standing ts rest n) := by
  rw [forInitializer]
  cases rest with
  | nil =>
    rw [ClassScript.forInitializer]
    refine .skip (accept_nil hts _) (.skip (accept_nil hts _) ?_)
    exact (expressionStatement_tracks hts tracking n h hd).map fun _ => rfl
  | cons t rest =>
    rw [ClassScript.forInitializer]
    refine .accept h.1 (fun ht => .pure (h.1.ready_behind ht) rfl) fun _ =>
      .accept h.1 (fun _ => ?_) fun _ => ?_
    · rw [List.length_cons] at hd
      exact (letDeclaration_tracks hts tracking n h.1.behind (by omega)).map fun _ => rfl
    · exact (expressionStatement_tracks hts tracking n h hd).map fun _ => rfl

theorem forClauses_tracks (hts : ts ≠ []) (tracking : Tracking ts r d) (n : Nat) (h : Left ts rest)
    (hd : 4 * rest.length < d) :
    Tracks ts (Ready ts) (fun clauses => clauses) (ClassScript.forClauses (endLine ts) n rest)
      (forClauses r) (standing ts rest n) := by
  rw [ClassScript.forClauses, forClauses]
  refine (Tracks.consume hts h _ _ n).bind ?_
  intro left n₁ rest₁ _ hready₁
  refine (forInitializer_tracks hts tracking n₁ hready₁ (by omega)).bind ?_
  intro initializer n₂ rest₂ _ hready₂
  refine (optionalExpression_tracks hts tracking _ n₂ hready₂ (by omega)).bind ?_
  intro condition n₃ rest₃ _ hleft₃
  refine (Tracks.consume hts hleft₃ _ _ n₃).bind ?_
  intro semicolon n₄ rest₄ _ hready₄
  refine (optionalExpression_tracks hts tracking _ n₄ hready₄ (by omega)).bind ?_
  intro step n₅ rest₅ _ hleft₅
  exact (Tracks.consume hts hleft₅ _ _ n₅).map fun _ => rfl

theorem condition_tracks (hts : ts ≠ []) (tracking : Tracking ts r d) (missing : SyntaxFault)
    (n : Nat) (h : Left ts rest) (hd : 4 * rest.length < d) :
    Tracks ts (Ready ts) (fun e => e) (ClassScript.condition (endLine ts) missing n rest)
      (condition r missing) (standing ts rest n) := by
  rw [ClassScript.condition, condition]
  refine (Tracks.consume hts h _ _ n).bind ?_
  intro left n₁ rest₁ _ hready₁
  refine (tracking.expression n₁ rest₁ hready₁ (by omega)).bind ?_
  intro e n₂ rest₂ _ hleft₂
  exact (Tracks.consume hts hleft₂ _ _ n₂).map fun _ => rfl

theorem superclassClause_tracks (hts : ts ≠ []) (n : Nat) (h : Left ts rest) :
    Tracks ts (Left ts) (fun e => e) (ClassScript.superclassClause (endLine ts) n rest)
      superclassClause (standing ts rest n) := by
  rw [superclassClause]
  cases rest with
  | nil =>
    rw [ClassScript.superclassClause]
    exact .skip (accept_nil hts _) (.pure h rfl)
  | cons t rest =>
    rw [ClassScript.superclassClause]
    refine .accept h (fun _ => ?_) fun _ => .pure h rfl
    refine (Tracks.consume hts h.behind _ _ n).bind ?_
    intro name n₁ rest₁ _ hready₁
    exact .step (freshId_runs rest₁ n₁) (.pure hready₁.1 rfl)

theorem classHeading_tracks (hts : ts ≠ []) (n : Nat) (h : Left ts rest) :
    Tracks ts (Ready ts) (fun heading => heading) (ClassScript.classHeading (endLine ts) n rest)
      classHeading (standing ts rest n) := by
  rw [ClassScript.classHeading, classHeading]
  refine (Tracks.consume hts h _ _ n).bind ?_
  intro name n₁ rest₁ _ hready₁
  refine (superclassClause_tracks hts n₁ hready₁.1).bind ?_
  intro superclass n₂ rest₂ _ hleft₂
  exact (Tracks.consume hts hleft₂ _ _ n₂).map fun _ => rfl

theorem parameterList_tracks (hts : ts ≠ []) (line : Nat) (front : List Token) (n : Nat)
    (rest : List Token) (h : Left ts rest) :
    Tracks ts (Left ts) (fun parameters => front ++ parameters)
      (ClassScript.parameterList (endLine ts) line front.length n rest) (parameterList line front)
      (standing ts rest n) := by
  rw [ClassScript.parameterList, parameterList]
  split
  · exact ⟨h, n, rfl⟩
  · refine (Tracks.consume hts h _ _ n).bind ?_
    intro parameter n₁ rest₁ hl hready
    have count : (front ++ [parameter]).length = front.length + 1 := by simp
    cases rest₁ with
    | nil => exact .skip (accept_nil hts _) (.pure hready.1 rfl)
    | cons t more =>
      have hlt : more.length < rest.length := Nat.lt_of_succ_lt hl
      refine .accept hready.1 (fun ht => ?_) fun _ => .pure hready.1 rfl
      have later := parameterList_tracks hts line (front ++ [parameter]) n₁ more hready.1.behind
      rw [count] at later
      exact later.mapped fun _ => by simp
termination_by rest.length
decreasing_by omega

theorem parameters_tracks (hts : ts ≠ []) (line n : Nat) (h : Left ts rest) :
    Tracks ts (Left ts) (fun parameters => parameters)
      (ClassScript.parameters (endLine ts) line n rest) (parameters line) (standing ts rest n) := by
  rw [parameters]
  cases rest with
  | nil =>
    rw [ClassScript.parameters]
    exact .skip (check_nil hts _) ((parameterList_tracks hts line [] n [] h).within _)
  | cons t rest =>
    rw [ClassScript.parameters]
    refine .branch (check_cons h _) (fun _ => .pure h rfl) fun _ => ?_
    exact (parameterList_tracks hts line [] n (t :: rest) h).within _

theorem routineHeading_tracks (hts : ts ≠ []) (kind : Routine) (n : Nat) (h : Left ts rest) :
    Tracks ts (Ready ts) (fun heading => heading)
      (ClassScript.routineHeading (endLine ts) kind n rest) (routineHeading kind)
      (standing ts rest n) := by
  rw [ClassScript.routineHeading, routineHeading]
  refine (Tracks.consume hts h _ _ n).bind ?_
  intro name n₁ rest₁ _ hready₁
  refine (Tracks.consume hts hready₁.1 _ _ n₁).bind ?_
  intro left n₂ rest₂ _ hready₂
  refine (parameters_tracks hts name.line n₂ hready₂.1).bind ?_
  intro parameters n₃ rest₃ _ hleft₃
  refine (Tracks.consume hts hleft₃ _ _ n₃).bind ?_
  intro right n₄ rest₄ _ hready₄
  exact (Tracks.consume hts hready₄.1 _ _ n₄).map fun _ => rfl

/-- A declaration is what `unguarded` reads, but for what it gives up after a failure. -/
theorem declaration_recovers (hts : ts ≠ []) {m n : Nat} {reading : Reading Stmt m}
    (h : Tracks ts (Left ts) (fun s => s) reading (unguarded r) (standing ts rest n)) :
    Tracks ts (Left ts) (fun s => s)
      (reading.recover ClassScript.synchronize synchronize_length_le) (declaration r)
      (standing ts rest n) := by
  rw [declaration]
  cases reading with
  | done s next rest₁ =>
    obtain ⟨hleft, run⟩ := h
    refine ⟨hleft, (StateT.run_bind ..).trans ?_⟩
    rw [run]
    rfl
  | failed error rest₁ =>
    obtain ⟨hleft, next, run⟩ := h
    refine ⟨(synchronize_suffix rest₁).trans hleft, next, (StateT.run_bind ..).trans ?_⟩
    rw [run]
    simp [synchronize_runs hts hleft]

theorem elseClause_tracks (hts : ts ≠ []) (tracking : Tracking ts r d) (n : Nat) (h : Left ts rest)
    (hd : 4 * rest.length ≤ d) :
    Tracks ts (Left ts) (fun s => s) (ClassScript.elseClause (endLine ts) n rest) (elseClause r)
      (standing ts rest n) := by
  rw [elseClause]
  cases rest with
  | nil =>
    rw [ClassScript.elseClause]
    exact .skip (accept_nil hts _) (.pure h rfl)
  | cons t rest =>
    rw [List.length_cons] at hd
    rw [ClassScript.elseClause]
    refine .accept h (fun ht => ?_) fun _ => .pure h rfl
    exact (tracking.statement n rest (h.ready_behind ht) (by omega)).map fun _ => rfl

theorem block_tracks (tracking : Tracking ts r d) (n : Nat) (h : Left ts rest)
    (hd : 4 * rest.length + 3 < d) :
    Tracks ts (Left ts) (fun body => body) (ClassScript.block (endLine ts) n rest) (block r)
      (standing ts rest n) := by
  rw [block]
  exact tracking.declarations [] n rest h hd

theorem routine_tracks (hts : ts ≠ []) (tracking : Tracking ts r d) (kind : Routine) (n : Nat)
    (h : Left ts rest) (hd : 4 * rest.length ≤ d) :
    Tracks ts (Left ts) (fun d => d) (ClassScript.routine (endLine ts) kind n rest) (routine r kind)
      (standing ts rest n) := by
  rw [ClassScript.routine, routine]
  refine (routineHeading_tracks hts kind n h).bind ?_
  rintro ⟨name, parameters⟩ n₁ rest₁ hl hready₁
  exact (block_tracks tracking n₁ hready₁.1 (by omega)).map fun _ => rfl

theorem statement_tracks (hts : ts ≠ []) (tracking : Tracking ts r d) (n : Nat) (h : Ready ts rest)
    (hd : 4 * rest.length + 2 ≤ d) :
    Tracks ts (Left ts) (fun s => s) (ClassScript.statement (endLine ts) n rest) (statement r)
      (standing ts rest n) := by
  rw [statement]
  cases rest with
  | nil =>
    have skipped := accept_nil (n := n) hts
    rw [ClassScript.statement]
    refine .skip (skipped _) (.skip (skipped _) (.skip (skipped _) (.skip (skipped _)
      (.skip (skipped _) (.skip (skipped _) ?_)))))
    exact (expressionStatement_tracks hts tracking n h hd).imp fun _ => And.left
  | cons t rest =>
    have hleft := h.1
    have inside : 4 * rest.length + 6 ≤ d := hd
    rw [ClassScript.statement]
    refine .accept hleft (fun _ => ?isFor) fun _ => .accept hleft (fun _ => ?isIf) fun _ =>
      .accept hleft (fun _ => ?isWhile) fun _ => .accept hleft (fun isReturn => ?isReturn) fun _ =>
      .accept hleft (fun _ => ?isBlock) fun _ => .accept hleft (fun isPrint => ?isPrint) fun _ =>
        ?other
    case isFor =>
      refine (forClauses_tracks hts tracking n hleft.behind (by omega)).bind ?_
      rintro ⟨initializer, condition, step⟩ n₁ rest₁ hl hready₁
      exact (tracking.statement n₁ rest₁ hready₁ (by omega)).map fun _ => rfl
    case isIf =>
      refine (condition_tracks hts tracking _ n hleft.behind (by omega)).bind ?_
      intro condition n₁ rest₁ hl hready₁
      refine (tracking.statement n₁ rest₁ hready₁ (by omega)).bind ?_
      intro thenBranch n₂ rest₂ hl₂ hleft₂
      exact (elseClause_tracks hts tracking n₂ hleft₂ (by omega)).map fun _ => rfl
    case isWhile =>
      refine (condition_tracks hts tracking _ n hleft.behind (by omega)).bind ?_
      intro condition n₁ rest₁ hl hready₁
      exact (tracking.statement n₁ rest₁ hready₁ (by omega)).map fun _ => rfl
    case isReturn =>
      have read := returnStatement_tracks hts tracking n hleft isReturn (by omega)
      exact (read.within _).imp fun _ => And.left
    case isBlock => exact (block_tracks tracking n hleft.behind (by omega)).map fun _ => rfl
    case isPrint =>
      have read := printStatement_tracks hts tracking n (hleft.ready_behind isPrint) (by omega)
      exact (read.within _).imp fun _ => And.left
    case other => exact (expressionStatement_tracks hts tracking n h hd).imp fun _ => And.left

theorem unguarded_tracks (hts : ts ≠ []) (tracking : Tracking ts r d) (n : Nat) (h : Ready ts rest)
    (hd : 4 * rest.length + 2 < d) :
    Tracks ts (Left ts) (fun s => s) (ClassScript.declaration (endLine ts) n rest) (unguarded r)
      (standing ts rest n) := by
  rw [unguarded]
  cases rest with
  | nil =>
    have skipped := accept_nil (n := n) hts
    rw [ClassScript.declaration]
    refine .skip (skipped _) (.skip (skipped _) (.skip (skipped _) (.skip (skipped _) ?_)))
    exact tracking.statement n [] h hd
  | cons t rest =>
    have hleft := h.1
    have inside : 4 * rest.length + 6 < d := hd
    rw [ClassScript.declaration]
    refine .accept hleft (fun _ => ?isClass) fun _ => .accept hleft (fun _ => ?isFunction) fun _ =>
      .accept hleft (fun _ => ?isLet) fun _ => .accept hleft (fun _ => ?isConst) fun _ => ?other
    case isClass =>
      refine (classHeading_tracks hts n hleft.behind).bind ?_
      rintro ⟨name, superclass⟩ n₁ rest₁ hl hready₁
      have found := tracking.members name superclass ([], []) n₁ rest₁ hready₁.1 (by omega)
      exact found.mapped fun _ => rfl
    case isFunction =>
      exact (routine_tracks hts tracking .function n hleft.behind (by omega)).map fun _ => rfl
    case isLet =>
      have read := letDeclaration_tracks hts tracking n hleft.behind (by omega)
      exact (read.within _).imp fun _ => And.left
    case isConst =>
      have read := constDeclaration_tracks hts tracking n hleft.behind (by omega)
      exact (read.within _).imp fun _ => And.left
    case other => exact tracking.statement n (t :: rest) h hd

theorem declarations_tracks (hts : ts ≠ []) (tracking : Tracking ts r d) (front : List Stmt)
    (n : Nat) (h : Left ts rest) (hd : 4 * rest.length + 3 ≤ d) :
    Tracks ts (Left ts) (fun body => front ++ body) (ClassScript.block (endLine ts) n rest)
      (do
        let body ← declarations r front
        let _ ← consume .rightBrace .blockClose
        return body)
      (standing ts rest n) := by
  rw [declarations, choice_bind, choice_bind]
  cases rest with
  | nil =>
    rw [ClassScript.block]
    refine .skip (check_nil hts _) (.go (atEnd_nil hts n) ?_)
    rw [pure_bind]
    exact (Fails.consume hts h nofun _ _).bind _
  | cons t rest =>
    rw [ClassScript.block]
    refine .branch (check_cons h _) (fun ht => ?_) fun _ => .skip (atEnd_cons h) ?_
    · rw [pure_bind]
      exact .consumed h ht (.pure h.behind (List.append_nil _).symm)
    · rw [bind_assoc]
      refine (declaration_recovers hts (unguarded_tracks hts tracking n h.ready_cons hd)).bind ?_
      intro first n₁ rest₁ hl hleft₁
      have later := tracking.declarations (front ++ [first]) n₁ rest₁ hleft₁ (by omega)
      exact later.mapped fun _ => by simp

theorem members_tracks (hts : ts ≠ []) (tracking : Tracking ts r d) (name : Token)
    (superclass : Option Expr) (front : List FunctionDecl × List FunctionDecl) (n : Nat)
    (h : Left ts rest) (hd : 4 * rest.length ≤ d) :
    Tracks ts (Left ts)
      (fun found => Stmt.classDecl name superclass (front.1 ++ found.1) (front.2 ++ found.2))
      (ClassScript.members (endLine ts) n rest)
      (do
        let found ← members r front
        let _ ← consume .rightBrace .classClose
        return Stmt.classDecl name superclass found.1 found.2)
      (standing ts rest n) := by
  rw [members, choice_bind, choice_bind, choice_bind]
  cases rest with
  | nil =>
    rw [ClassScript.members]
    refine .skip (check_nil hts _) (.go (atEnd_nil hts n) ?_)
    rw [pure_bind]
    exact (Fails.consume hts h nofun _ _).bind _
  | cons t rest =>
    have inside : 4 * rest.length + 4 ≤ d := hd
    rw [ClassScript.members]
    refine .branch (check_cons h _) (fun ht => ?isEnd) fun _ => .skip (atEnd_cons h)
      (.accept h (fun _ => ?isStatic) fun _ => ?isMethod)
    case isEnd =>
      rw [pure_bind]
      exact .consumed h ht (.pure h.behind (by simp))
    case isStatic =>
      rw [bind_assoc]
      refine (routine_tracks hts tracking .staticMethod n h.behind (by omega)).bind ?_
      intro first n₁ rest₁ hl hleft₁
      have later := tracking.members name superclass (front.1, front.2 ++ [first]) n₁ rest₁ hleft₁
        (by omega)
      exact later.mapped fun _ => by simp
    case isMethod =>
      rw [bind_assoc]
      refine (routine_tracks hts tracking .method n h hd).bind ?_
      intro first n₁ rest₁ hl hleft₁
      have later := tracking.members name superclass (front.1 ++ [first], front.2) n₁ rest₁ hleft₁
        (by omega)
      exact later.mapped fun _ => by simp

end Statements

/-- Where so many calls are enough, one more is enough for the rules that are made of these. -/
theorem Tracking.next (hts : ts ≠ []) (tracking : Tracking ts (rules d) d) :
    Tracking ts (rules (d + 1)) (d + 1) where
  expression n _ h hd := expression_tracks hts tracking n h (Nat.le_of_lt_succ hd)
  operatorChain level tighter left n _ h hd :=
    operatorChain_tracks hts tracking level tighter left n h (Nat.le_of_lt_succ hd)
  unary n _ h hd := unary_tracks hts tracking n h (Nat.le_of_lt_succ hd)
  suffixes e n _ h hd := suffixes_tracks hts tracking e n h (Nat.le_of_lt_succ hd)
  argumentList callee front n _ h hd :=
    argumentList_tracks hts tracking callee front n h (Nat.le_of_lt_succ hd)
  statement n _ h hd := statement_tracks hts tracking n h (Nat.le_of_lt_succ hd)
  declarations front n _ h hd := declarations_tracks hts tracking front n h (Nat.le_of_lt_succ hd)
  members name superclass front n _ h hd :=
    members_tracks hts tracking name superclass front n h (Nat.le_of_lt_succ hd)

theorem rules_tracking (hts : ts ≠ []) (d : Nat) : Tracking ts (rules d) d := by
  induction d with
  | zero => constructor <;> exact fun _ => by omega
  | succ d ih => exact ih.next hts

end ClassScript.Parser
