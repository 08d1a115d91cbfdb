import ClassScript.Proofs.Syntax.Behind
import ClassScript.Proofs.Syntax.Exactness

/-! Statements that other tokens follow. A statement has an end of its own, so a reading of one that
comes to it does not depend on what stands behind, as long as that is no `else`. -/
namespace ClassScript

open Reading Grammar

theorem resumeAfter_suffix (last : Token) (ts : List Token) : resumeAfter last ts <:+ ts := by
  fun_induction resumeAfter last ts with
  | case1 => exact List.suffix_refl _
  | case2 => exact List.suffix_refl _
  | case3 _ t rest _ ih => exact ih.trans (List.suffix_cons t rest)

theorem synchronize_suffix (ts : List Token) : synchronize ts <:+ ts := by
  cases ts with
  | nil => exact List.suffix_refl _
  | cons t rest => exact (resumeAfter_suffix t rest).trans (List.suffix_cons t rest)

theorem resumeAfter_append {last : Token} {ts us : List Token} (h : resumeAfter last ts ≠ []) :
    resumeAfter last (ts ++ us) = resumeAfter last ts ++ us := by
  induction ts generalizing last with
  | nil => exact absurd rfl h
  | cons t ts ih =>
    rw [resumeAfter] at h
    rw [List.cons_append, resumeAfter, resumeAfter]
    split
    case isTrue => rfl
    case isFalse hc => exact ih (by simpa [hc] using h)

theorem synchronize_append {ts us : List Token} (h : synchronize ts = [] → us = []) :
    synchronize (ts ++ us) = synchronize ts ++ us := by
  by_cases hs : synchronize ts = []
  · simp [h hs]
  · cases ts with
    | nil => exact absurd rfl hs
    | cons t ts => exact resumeAfter_append hs

section Statements

variable {endLine endLine' k : Nat} {us : List Token} {α β : Type} {m n m' n' : Nat}

theorem optionalExpression_precedes (stop : Symbol) (n : Nat) (ts : List Token) :
    Precedes endLine endLine' k us (Option.map (Expr.raised k))
      (optionalExpression endLine stop n ts)
      (optionalExpression endLine' stop (n + k) (ts ++ us)) := by
  cases ts with
  | nil =>
    intro ho
    obtain ⟨rfl, rfl⟩ := ho (by simp [optionalExpression, expression_nil, Reading.map,
      Reading.andThen, Reading.Open])
    exact (expression_precedes n []).map (fun _ => rfl) ho
  | cons t ts =>
    rw [List.cons_append, optionalExpression, optionalExpression]
    split
    · exact fun _ => ⟨rfl, rfl, rfl⟩
    · exact (expression_precedes n (t :: ts)).map fun _ => rfl

theorem letInitializer_precedes (n : Nat) (ts : List Token) :
    Precedes endLine endLine' k us (Option.map (Expr.raised k)) (letInitializer endLine n ts)
      (letInitializer endLine' (n + k) (ts ++ us)) := by
  cases ts with
  | nil =>
    intro ho
    obtain ⟨rfl, rfl⟩ := ho ⟨rfl, rfl⟩
    exact ⟨rfl, rfl, rfl⟩
  | cons t ts =>
    rw [List.cons_append, letInitializer, letInitializer]
    split
    · exact (expression_precedes n ts).map fun _ => rfl
    · exact fun _ => ⟨rfl, rfl, rfl⟩

theorem letDeclaration_follows (n : Nat) (ts : List Token) :
    Follows endLine endLine' k us (Stmt.raised k) (letDeclaration endLine n ts)
      (letDeclaration endLine' (n + k) (ts ++ us)) := by
  unfold letDeclaration
  refine (expect_follows _ _ n ts).andThen ?_
  intro name n₁ rest₁ _ _
  refine (letInitializer_precedes n₁ rest₁).andThen (fun _ _ _ _ => rfl) ?_
  intro initializer n₂ rest₂ _ _
  refine (expect_follows _ _ n₂ rest₂).map fun _ => ?_
  rw [Stmt.raised]

theorem constDeclaration_follows (n : Nat) (ts : List Token) :
    Follows endLine endLine' k us (Stmt.raised k) (constDeclaration endLine n ts)
      (constDeclaration endLine' (n + k) (ts ++ us)) := by
  unfold constDeclaration
  refine (expect_follows _ _ n ts).andThen ?_
  intro name n₁ rest₁ _ _
  refine (expect_follows _ _ n₁ rest₁).andThen ?_
  intro equals n₂ rest₂ _ _
  refine (expression_precedes n₂ rest₂).andThen (fun _ _ _ _ => rfl) ?_
  intro value n₃ rest₃ _ _
  refine (expect_follows _ _ n₃ rest₃).map fun _ => ?_
  rw [Stmt.raised]

theorem expressionStatement_follows (n : Nat) (ts : List Token) :
    Follows endLine endLine' k us (Stmt.raised k) (expressionStatement endLine n ts)
      (expressionStatement endLine' (n + k) (ts ++ us)) := by
  unfold expressionStatement
  refine (expression_precedes n ts).andThen (fun _ _ _ _ => rfl) ?_
  intro e n₁ rest₁ _ _
  refine (expect_follows _ _ n₁ rest₁).map fun _ => ?_
  rw [Stmt.raised]

theorem printStatement_follows (n : Nat) (ts : List Token) :
    Follows endLine endLine' k us (Stmt.raised k) (printStatement endLine n ts)
      (printStatement endLine' (n + k) (ts ++ us)) := by
  unfold printStatement
  refine (expression_precedes n ts).andThen (fun _ _ _ _ => rfl) ?_
  intro e n₁ rest₁ _ _
  refine (expect_follows _ _ n₁ rest₁).map fun _ => ?_
  rw [Stmt.raised]

theorem returnStatement_follows (keyword : Token) (n : Nat) (ts : List Token) :
    Follows endLine endLine' k us (Stmt.raised k) (returnStatement endLine keyword n ts)
      (returnStatement endLine' keyword (n + k) (ts ++ us)) := by
  unfold returnStatement
  refine (optionalExpression_precedes _ n ts).andThen (fun _ _ _ _ => rfl) ?_
  intro value n₁ rest₁ _ _
  refine (expect_follows _ _ n₁ rest₁).map fun _ => ?_
  rw [Stmt.raised]

theorem expressionStatement_nil (n : Nat) :
    expressionStatement endLine n [] = .failed ⟨.expression, endLine⟩ [] (Nat.le_refl _) := by
  simp [expressionStatement, expression_nil, Reading.andThen]

theorem forInitializer_follows (n : Nat) (ts : List Token) :
    Follows endLine endLine' k us (Stmt.raisedOption k) (forInitializer endLine n ts)
      (forInitializer endLine' (n + k) (ts ++ us)) := by
  cases ts with
  | nil =>
    intro ho
    obtain ⟨rfl, rfl⟩ := ho (by simp [forInitializer, expressionStatement_nil, Reading.map,
      Reading.andThen, Reading.Open])
    exact (expressionStatement_follows n []).map (fun _ => by rw [Stmt.raisedOption]) ho
  | cons t ts =>
    rw [List.cons_append, forInitializer, forInitializer]
    split
    · exact fun _ => ⟨by rw [Stmt.raisedOption], rfl, rfl⟩
    · split
      · exact (letDeclaration_follows n ts).map fun _ => by rw [Stmt.raisedOption]
      · exact (expressionStatement_follows n (t :: ts)).map fun _ => by rw [Stmt.raisedOption]

theorem forClauses_follows (n : Nat) (ts : List Token) :
    Follows endLine endLine' k us
      (fun v => (Stmt.raisedOption k v.1, v.2.1.map (Expr.raised k), v.2.2.map (Expr.raised k)))
      (forClauses endLine n ts) (forClauses endLine' (n + k) (ts ++ us)) := by
  unfold forClauses
  refine (expect_follows _ _ n ts).andThen ?_
  intro left n₁ rest₁ _ _
  refine (forInitializer_follows n₁ rest₁).andThen ?_
  intro initializer n₂ rest₂ _ _
  refine (optionalExpression_precedes _ n₂ rest₂).andThen (fun _ _ _ _ => rfl) ?_
  intro condition n₃ rest₃ _ _
  refine (expect_follows _ _ n₃ rest₃).andThen ?_
  intro semicolon n₄ rest₄ _ _
  refine (optionalExpression_precedes _ n₄ rest₄).andThen (fun _ _ _ _ => rfl) ?_
  intro step n₅ rest₅ _ _
  exact (expect_follows _ _ n₅ rest₅).map fun _ => rfl

theorem condition_follows (missing : SyntaxFault) (n : Nat) (ts : List Token) :
    Follows endLine endLine' k us (Expr.raised k) (condition endLine missing n ts)
      (condition endLine' missing (n + k) (ts ++ us)) := by
  unfold condition
  refine (expect_follows _ _ n ts).andThen ?_
  intro left n₁ rest₁ _ _
  refine (expression_precedes n₁ rest₁).andThen (fun _ _ _ _ => rfl) ?_
  intro e n₂ rest₂ _ _
  exact (expect_follows _ _ n₂ rest₂).map fun _ => rfl

theorem superclassClause_precedes (n : Nat) (ts : List Token) :
    Precedes endLine endLine' k us (Option.map (Expr.raised k)) (superclassClause endLine n ts)
      (superclassClause endLine' (n + k) (ts ++ us)) := by
  cases ts with
  | nil =>
    intro ho
    obtain ⟨rfl, rfl⟩ := ho ⟨rfl, rfl⟩
    exact ⟨rfl, rfl, rfl⟩
  | cons t ts =>
    rw [List.cons_append, superclassClause, superclassClause]
    split
    · refine (expect_follows _ _ n ts).andThen ?_
      intro name n₁ rest₁ _ _ _
      exact ⟨by rw [Option.map, Expr.raised], Nat.add_right_comm .., rfl⟩
    · exact fun _ => ⟨rfl, rfl, rfl⟩

theorem classHeading_follows (n : Nat) (ts : List Token) :
    Follows endLine endLine' k us (fun v => (v.1, v.2.map (Expr.raised k)))
      (classHeading endLine n ts) (classHeading endLine' (n + k) (ts ++ us)) := by
  unfold classHeading
  refine (expect_follows _ _ n ts).andThen ?_
  intro name n₁ rest₁ _ _
  refine (superclassClause_precedes n₁ rest₁).andThen (fun _ _ _ _ => rfl) ?_
  intro superclass n₂ rest₂ _ _
  exact (expect_follows _ _ n₂ rest₂).map fun _ => rfl

theorem parameterList_precedes (line count n : Nat) (ts : List Token) :
    Precedes endLine endLine' k us (fun ps => ps) (parameterList endLine line count n ts)
      (parameterList endLine' line count (n + k) (ts ++ us)) := by
  rw [parameterList, parameterList]
  split
  · exact fun _ => ⟨rfl, rfl⟩
  · refine (expect_follows _ _ n ts).andThen ?_
    intro parameter n₁ rest hl hl'
    cases rest with
    | nil =>
      intro ho
      obtain ⟨rfl, rfl⟩ := ho ⟨rfl, rfl⟩
      exact ⟨rfl, rfl, rfl⟩
    | cons t more =>
      have hlt : more.length < ts.length := Nat.lt_of_succ_lt hl
      simp only [List.cons_append]
      split
      · exact (parameterList_precedes line (count + 1) n₁ more).map fun _ => rfl
      · exact fun _ => ⟨rfl, rfl, rfl⟩
termination_by ts.length
decreasing_by omega

theorem parameters_precedes (line n : Nat) (ts : List Token) :
    Precedes endLine endLine' k us (fun ps => ps) (parameters endLine line n ts)
      (parameters endLine' line (n + k) (ts ++ us)) := by
  cases ts with
  | nil =>
    intro ho
    have failed : parameterList endLine line 0 n [] = .failed ⟨.parameterName, endLine⟩ [] := by
      rw [parameterList]
      rfl
    obtain ⟨rfl, rfl⟩ := ho (by simp [parameters, failed, Reading.within, Reading.Open])
    exact (parameterList_precedes line 0 n []).within (Nat.le_succ _) (Nat.le_succ _) ho
  | cons t ts =>
    rw [List.cons_append, parameters, parameters]
    split
    · exact fun _ => ⟨rfl, rfl, rfl⟩
    · exact (parameterList_precedes line 0 n (t :: ts)).within _ _

theorem routineHeading_follows (kind : Routine) (n : Nat) (ts : List Token) :
    Follows endLine endLine' k us (fun heading => heading) (routineHeading endLine kind n ts)
      (routineHeading endLine' kind (n + k) (ts ++ us)) := by
  unfold routineHeading
  refine (expect_follows _ _ n ts).andThen ?_
  intro name n₁ rest₁ _ _
  refine (expect_follows _ _ n₁ rest₁).andThen ?_
  intro left n₂ rest₂ _ _
  refine (parameters_precedes name.line n₂ rest₂).andThen (fun _ _ _ _ => rfl) ?_
  intro parameters n₃ rest₃ _ _
  refine (expect_follows _ _ n₃ rest₃).andThen ?_
  intro right n₄ rest₄ _ _
  exact (expect_follows _ _ n₄ rest₄).map fun _ => rfl

theorem Reading.Follows.recover {f : α → α} {r : Reading α m} {r' : Reading α n}
    (h : Follows endLine endLine' k us f r r') :
    Follows endLine endLine' k us f (r.recover synchronize synchronize_length_le)
      (r'.recover synchronize synchronize_length_le) := by
  intro ho
  cases r with
  | done value next rest hl =>
    have alike := h fun hr => absurd hr.1 Bool.false_ne_true
    cases r' <;> exact alike
  | failed error rest hl =>
    have alike := h fun hr => ho ((congrArg synchronize hr).trans rfl)
    cases r' with
    | done => exact alike
    | failed error' rest' hl' =>
      obtain ⟨rfl, rfl⟩ := alike
      exact ⟨rfl, synchronize_append fun hs => (ho hs).1⟩

theorem statement_nil (n : Nat) :
    statement endLine n [] = .failed ⟨.expression, endLine⟩ [] (Nat.le_refl _) := by
  rw [statement, expressionStatement_nil]

theorem declaration_nil (n : Nat) :
    declaration endLine n [] = .failed ⟨.expression, endLine⟩ [] (Nat.le_refl _) := by
  rw [declaration, statement_nil]

mutual

theorem declaration_follows (noElse : NoElse us) (n : Nat) (ts : List Token) :
    Follows endLine endLine' k us (Stmt.raised k) (declaration endLine n ts)
      (declaration endLine' (n + k) (ts ++ us)) := by
  cases ts with
  | nil =>
    rw [declaration_nil]
    intro ho
    obtain ⟨rfl, rfl⟩ := ho rfl
    rw [List.nil_append, declaration_nil]
    exact ⟨rfl, rfl⟩
  | cons t rest =>
    rw [List.cons_append, declaration, declaration]
    split
    · refine (classHeading_follows n rest).andThen ?_
      rintro ⟨name, superclass⟩ n₁ rest₁ hl hl'
      refine (members_follows noElse n₁ rest₁).map ?_
      rintro ⟨methods, statics⟩
      rw [Stmt.raised]
    · split
      · exact (routine_follows noElse .function n rest).map fun _ => by rw [Stmt.raised]
      · split
        · exact (letDeclaration_follows n rest).within _ _
        · split
          · exact (constDeclaration_follows n rest).within _ _
          · exact statement_follows noElse n (t :: rest)
termination_by ts.length * 4 + 1
decreasing_by all_goals (try simp only [List.length_cons]); omega

theorem statement_follows (noElse : NoElse us) (n : Nat) (ts : List Token) :
    Follows endLine endLine' k us (Stmt.raised k) (statement endLine n ts)
      (statement endLine' (n + k) (ts ++ us)) := by
  cases ts with
  | nil =>
    rw [statement_nil]
    intro ho
    obtain ⟨rfl, rfl⟩ := ho rfl
    rw [List.nil_append, statement_nil]
    exact ⟨rfl, rfl⟩
  | cons t rest =>
    rw [List.cons_append, statement, statement]
    split
    · refine (forClauses_follows n rest).andThen ?_
      rintro ⟨initializer, condition, step⟩ n₁ rest₁ hl hl'
      exact (statement_follows noElse n₁ rest₁).map fun _ => (Stmt.raised_forLoop ..).symm
    · split
      · refine (condition_follows _ n rest).andThen ?_
        intro condition n₁ rest₁ hl hl'
        refine (statement_follows noElse n₁ rest₁).andThen ?_
        intro thenBranch n₂ rest₂ hl₂ hl₂'
        exact (elseClause_follows noElse n₂ rest₂).map fun _ => by rw [Stmt.raised]
      · split
        · refine (condition_follows _ n rest).andThen ?_
          intro condition n₁ rest₁ hl hl'
          exact (statement_follows noElse n₁ rest₁).map fun _ => by rw [Stmt.raised]
        · split
          · exact (returnStatement_follows t n rest).within _ _
          · split
            · exact (block_follows noElse n rest).map fun _ => by rw [Stmt.raised]
            · split
              · exact (printStatement_follows n rest).within _ _
              · exact expressionStatement_follows n (t :: rest)
termination_by ts.length * 4
decreasing_by all_goals (try simp only [List.length_cons]); omega

theorem elseClause_follows (noElse : NoElse us) (n : Nat) (ts : List Token) :
    Follows endLine endLine' k us (Stmt.raisedOption k) (elseClause endLine n ts)
      (elseClause endLine' (n + k) (ts ++ us)) := by
  cases ts with
  | nil =>
    intro _
    rw [elseClause, List.nil_append]
    cases us with
    | nil =>
      rw [elseClause]
      exact ⟨by rw [Stmt.raisedOption], rfl, rfl⟩
    | cons t us =>
      rw [elseClause]
      simp only [noElse t rfl]
      exact ⟨by rw [Stmt.raisedOption], rfl, rfl⟩
  | cons t rest =>
    rw [List.cons_append, elseClause, elseClause]
    split
    · exact (statement_follows noElse n rest).map fun _ => by rw [Stmt.raisedOption]
    · exact fun _ => ⟨by rw [Stmt.raisedOption], rfl, rfl⟩
termination_by ts.length * 4
decreasing_by simp only [List.length_cons]; omega

theorem block_follows (noElse : NoElse us) (n : Nat) (ts : List Token) :
    Follows endLine endLine' k us (Stmt.raisedAll k) (block endLine n ts)
      (block endLine' (n + k) (ts ++ us)) := by
  cases ts with
  | nil =>
    rw [block]
    intro ho
    obtain ⟨rfl, rfl⟩ := ho rfl
    rw [List.nil_append, block]
    exact ⟨rfl, rfl⟩
  | cons t rest =>
    rw [List.cons_append, block, block]
    split
    · exact fun _ => ⟨by rw [Stmt.raisedAll], rfl, rfl⟩
    · refine (declaration_follows noElse n (t :: rest)).recover.andThen ?_
      intro first n₁ rest₁ hl hl'
      exact (block_follows noElse n₁ rest₁).map fun _ => by rw [Stmt.raisedAll]
termination_by ts.length * 4 + 2
decreasing_by all_goals (simp only [List.length_cons] at *; omega)

theorem members_follows (noElse : NoElse us) (n : Nat) (ts : List Token) :
    Follows endLine endLine' k us
      (fun v => (FunctionDecl.raisedAll k v.1, FunctionDecl.raisedAll k v.2))
      (members endLine n ts) (members endLine' (n + k) (ts ++ us)) := by
  cases ts with
  | nil =>
    rw [members]
    intro ho
    obtain ⟨rfl, rfl⟩ := ho rfl
    rw [List.nil_append, members]
    exact ⟨rfl, rfl⟩
  | cons t rest =>
    rw [List.cons_append, members, members]
    split
    · exact fun _ => ⟨by simp [FunctionDecl.raisedAll], rfl, rfl⟩
    · split
      · refine (routine_follows noElse .staticMethod n rest).andThen ?_
        intro first n₁ rest₁ hl hl'
        exact (members_follows noElse n₁ rest₁).map fun _ => by simp [FunctionDecl.raisedAll]
      · refine (routine_follows noElse .method n (t :: rest)).andThen ?_
        intro first n₁ rest₁ hl hl'
        exact (members_follows noElse n₁ rest₁).map fun _ => by simp [FunctionDecl.raisedAll]
termination_by ts.length * 4 + 1
decreasing_by all_goals (simp only [List.length_cons] at *; omega)

theorem routine_follows (noElse : NoElse us) (kind : Routine) (n : Nat) (ts : List Token) :
    Follows endLine endLine' k us (FunctionDecl.raised k) (routine endLine kind n ts)
      (routine endLine' kind (n + k) (ts ++ us)) := by
  rw [routine, routine]
  refine (routineHeading_follows kind n ts).andThen ?_
  rintro ⟨name, parameters⟩ n₁ rest₁ hl hl'
  exact (block_follows noElse n₁ rest₁).map fun _ => by rw [FunctionDecl.raised]
termination_by ts.length * 4
decreasing_by omega

end

end Statements

end ClassScript
