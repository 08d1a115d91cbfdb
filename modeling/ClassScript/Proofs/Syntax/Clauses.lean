import ClassScript.Proofs.Syntax.Proper

/-! What is read as a statement, as against a declaration: it declares nothing in the scope that it
stands in. A `for` statement is read from its clauses and a statement behind them. -/
namespace ClassScript

theorem Reading.gives_true {α : Type} {n : Nat} (r : Reading α n) : r.Gives fun _ _ _ => True := by
  cases r <;> trivial

theorem Stmt.forLoop_undeclared (initializer : Option Stmt) (condition step : Option Expr)
    {body : Stmt} (h : body.declared = []) :
    (Stmt.forLoop initializer condition step body).declared = [] := by
  cases initializer <;> cases step <;> simp [Stmt.forLoop, Stmt.declared, h]

section Readings

variable {endLine : Nat}

mutual

theorem statement_undeclared (n : Nat) (ts : List Token) :
    (statement endLine n ts).Gives fun s _ _ => s.declared = [] := by
  match ts with
  | [] =>
    rw [statement, expressionStatement]
    refine (Reading.gives_true _).andThen fun e n₁ rest₁ _ _ => ?_
    exact (Reading.gives_true _).map fun _ _ _ _ => by rw [Stmt.declared]
  | t :: rest =>
    rw [statement]
    split
    · refine (Reading.gives_true _).andThen ?_
      rintro ⟨initializer, condition, step⟩ n₁ rest₁ hl -
      exact (statement_undeclared n₁ rest₁).map fun body _ _ hb =>
        Stmt.forLoop_undeclared initializer condition step hb
    · split
      · refine (Reading.gives_true _).andThen fun condition n₁ rest₁ hl _ => ?_
        refine (statement_undeclared n₁ rest₁).andThen fun thenBranch n₂ rest₂ hl₂ hthen => ?_
        refine (elseClause_undeclared n₂ rest₂).map fun elseBranch _ _ helse => ?_
        rw [Stmt.declared, hthen, helse, List.append_nil]
      · split
        · refine (Reading.gives_true _).andThen fun condition n₁ rest₁ hl _ => ?_
          exact (statement_undeclared n₁ rest₁).map fun body _ _ hb => by rw [Stmt.declared, hb]
        · split
          · refine Reading.Gives.within ?_ _
            refine (Reading.gives_true _).andThen fun value n₁ rest₁ _ _ => ?_
            exact (Reading.gives_true _).map fun _ _ _ _ => by rw [Stmt.declared]
          · split
            · exact (Reading.gives_true _).map fun _ _ _ _ => by rw [Stmt.declared]
            · split
              · refine Reading.Gives.within ?_ _
                refine (Reading.gives_true _).andThen fun e n₁ rest₁ _ _ => ?_
                exact (Reading.gives_true _).map fun _ _ _ _ => by rw [Stmt.declared]
              · refine (Reading.gives_true _).andThen fun e n₁ rest₁ _ _ => ?_
                exact (Reading.gives_true _).map fun _ _ _ _ => by rw [Stmt.declared]
termination_by ts.length
decreasing_by all_goals (simp only [List.length_cons] at *; omega)

theorem elseClause_undeclared (n : Nat) (ts : List Token) :
    (elseClause endLine n ts).Gives fun s _ _ => Stmt.declaredElse s = [] := by
  match ts with
  | [] =>
    rw [elseClause]
    exact Stmt.declaredElse.eq_1
  | t :: rest =>
    rw [elseClause]
    split
    · exact (statement_undeclared n rest).map fun s _ _ hs => by rw [Stmt.declaredElse, hs]
    · exact Stmt.declaredElse.eq_1
termination_by ts.length
decreasing_by all_goals (simp only [List.length_cons] at *; omega)

end

/-- An initializer is a declaration of a variable or an expression. -/
def Stmt.Initializes (s : Stmt) : Prop := (∃ name value, s = .letDecl name value) ∨ ∃ e, s = .expr e

theorem forInitializer_initializes (n : Nat) (ts : List Token) :
    (forInitializer endLine n ts).Gives fun initializer _ _ =>
      ∀ s ∈ initializer, s.Initializes := by
  have expression (n : Nat) (ts : List Token) :
      (expressionStatement endLine n ts).Gives fun s _ _ => s.Initializes := by
    refine (Reading.gives_true _).andThen fun e n₁ rest₁ _ _ => ?_
    exact (Reading.gives_true _).map fun _ _ _ _ => .inr ⟨e, rfl⟩
  have declaration (n : Nat) (ts : List Token) :
      (letDeclaration endLine n ts).Gives fun s _ _ => s.Initializes := by
    refine (Reading.gives_true _).andThen fun name n₁ rest₁ _ _ => ?_
    refine (Reading.gives_true _).andThen fun value n₂ rest₂ _ _ => ?_
    exact (Reading.gives_true _).map fun _ _ _ _ => .inl ⟨name, value, rfl⟩
  have present {s : Stmt} (h : s.Initializes) : ∀ i ∈ some s, i.Initializes := by
    rintro i ⟨⟩
    exact h
  match ts with
  | [] => exact (expression n []).map fun s _ _ => present
  | t :: rest =>
    rw [forInitializer]
    split
    · rintro s ⟨⟩
    · split
      · exact (declaration n rest).map fun s _ _ => present
      · exact (expression n (t :: rest)).map fun s _ _ => present

theorem forClauses_initializes (n : Nat) (ts : List Token) :
    (forClauses endLine n ts).Gives fun clauses _ _ => ∀ s ∈ clauses.1, s.Initializes := by
  refine (Reading.gives_true _).andThen fun left n₁ rest₁ _ _ => ?_
  refine (forInitializer_initializes n₁ rest₁).andThen fun initializer n₂ rest₂ _ hi => ?_
  refine (Reading.gives_true _).andThen fun condition n₃ rest₃ _ _ => ?_
  refine (Reading.gives_true _).andThen fun semicolon n₄ rest₄ _ _ => ?_
  refine (Reading.gives_true _).andThen fun step n₅ rest₅ _ _ => ?_
  exact (Reading.gives_true _).map fun _ _ _ _ => hi

/-- The parts of a `for` statement, and the statement that it is read as. -/
theorem forStatement_done {n next : Nat} {t : Token} {ts rest : List Token} {s : Stmt}
    {hl : rest.length < (t :: ts).length} (isFor : t.is .forWord)
    (read : statement endLine n (t :: ts) = .done s next rest hl) :
    ∃ initializer condition step body n₁ rest₁ h₁ h₂,
      forClauses endLine n ts = .done (initializer, condition, step) n₁ rest₁ h₁ ∧
        statement endLine n₁ rest₁ = .done body next rest h₂ ∧
        s = .forLoop initializer condition step body := by
  rw [statement, if_pos isFor] at read
  cases hc : forClauses endLine n ts with
  | failed => simp [hc, Reading.andThen] at read
  | done clauses n₁ rest₁ h₁ =>
    obtain ⟨initializer, condition, step⟩ := clauses
    cases hb : statement endLine n₁ rest₁ with
    | failed => simp [hc, hb, Reading.andThen, Reading.map] at read
    | done body n₂ rest₂ h₂ =>
      simp only [hc, hb, Reading.andThen, Reading.map, Reading.done.injEq] at read
      obtain ⟨rfl, rfl, rfl⟩ := read
      exact ⟨initializer, condition, step, body, n₁, rest₁, h₁, h₂, rfl, hb, rfl⟩

end Readings

end ClassScript
