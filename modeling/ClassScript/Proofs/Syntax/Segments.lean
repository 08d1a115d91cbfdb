import ClassScript.Proofs.Syntax.Joined
import Mathlib.Data.List.Basic

/-! Errors in a row of statements, each of which ends with its only semicolon and has no word inside
that begins another. A reading of one does not fail behind that semicolon, and after a failure the
next reading begins there. -/
namespace ClassScript

namespace Reading

variable {α β : Type} {m n : Nat} {D D' F : List Token → Prop}

/-- What a reading leaves has the first property if it succeeds and the second one if it fails. -/
def Leaves (D F : List Token → Prop) : Reading α n → Prop
  | done _ _ rest _ => D rest
  | failed _ rest _ => F rest

theorem Leaves.within {r : Reading α m} (h : r.Leaves D F) (hn : m ≤ n) :
    (r.within hn : Reading α n).Leaves D F := by
  cases r <;> exact h

theorem Leaves.andThen {r : Reading α m} (h : r.Leaves D F)
    {next : (value : α) → (nextId : Nat) → (rest : List Token) → rest.length < m → Reading β n}
    {hn : m ≤ n} (hnext : ∀ value nextId rest hl, D rest →
      (next value nextId rest hl).Leaves D' F) : (r.andThen next hn).Leaves D' F := by
  cases r with
  | done value nextId rest hl => exact hnext value nextId rest hl h
  | failed => exact h

theorem Leaves.map {r : Reading α m} (h : r.Leaves D F) (f : α → β) (hn : m ≤ n) :
    (r.map f hn : Reading β n).Leaves D F := h.andThen fun _ _ _ _ hr => hr

end Reading

/-- Tokens up to a semicolon. No other semicolon, no opening brace and no `for` is among them, and
behind the first one no word that begins a statement. -/
inductive ToSemicolon : List Token → Prop
  | last {t : Token} (isSemicolon : t.is .semicolon) : ToSemicolon [t]
  | before {t : Token} {rest : List Token} (noSemicolon : ¬ t.is .semicolon)
    (noBrace : ¬ t.is .leftBrace) (noFor : ¬ t.is .forWord)
    (noStart : ∀ u ∈ rest, ¬ startsStatement u) (more : ToSemicolon rest) : ToSemicolon (t :: rest)

namespace ToSemicolon

variable {t : Token} {ts rest : List Token}

theorem behind (h : ToSemicolon (t :: rest)) (ht : ¬ t.is .semicolon) : ToSemicolon rest := by
  cases h with
  | last isSemicolon => exact absurd isSemicolon ht
  | before _ _ _ _ more => exact more

theorem behind_is (h : ToSemicolon (t :: rest)) {s : Symbol} (ht : t.is s) (hs : s ≠ .semicolon) :
    ToSemicolon rest := h.behind (by rw [Token.is_other ht hs]; exact Bool.false_ne_true)

theorem behind_semicolon (h : ToSemicolon (t :: rest)) (ht : t.is .semicolon) : rest = [] := by
  cases h with
  | last => rfl
  | before noSemicolon => exact absurd ht noSemicolon

theorem is_not (h : ToSemicolon (t :: rest)) : ¬ t.is .leftBrace ∧ ¬ t.is .forWord := by
  cases h with
  | last isSemicolon =>
    simp [Token.is_other isSemicolon]
  | before _ noBrace noFor => exact ⟨noBrace, noFor⟩

theorem ne_nil (h : ToSemicolon ts) : ts ≠ [] := by
  cases h <;> exact List.cons_ne_nil _ _

/-- The tokens are given up, and none behind their semicolon. -/
theorem resumeAfter (h : ToSemicolon (t :: rest)) (more : List Token) :
    ClassScript.resumeAfter t (rest ++ more) = more := by
  induction rest generalizing t with
  | nil =>
    cases h with
    | last isSemicolon =>
      cases more with
      | nil => rfl
      | cons u more => simp [ClassScript.resumeAfter, isSemicolon]
    | before _ _ _ _ none => exact absurd rfl none.ne_nil
  | cons u rest ih =>
    cases h with
    | before noSemicolon _ _ noStart behind =>
      have goesOn : ¬ (t.is .semicolon || startsStatement u) := by
        simp [noSemicolon, noStart u (by simp)]
      rw [List.cons_append, ClassScript.resumeAfter, if_neg goesOn]
      exact ih behind

theorem synchronize (h : ToSemicolon ts) (more : List Token) :
    ClassScript.synchronize (ts ++ more) = more := by
  cases ts with
  | nil => exact absurd rfl h.ne_nil
  | cons t rest => exact h.resumeAfter more

end ToSemicolon

open Reading Grammar

section Readings

variable {endLine : Nat}

theorem expect_leaves {s : Symbol} (hs : s ≠ .semicolon) (cause : SyntaxFault) (n : Nat)
    {ts : List Token} (h : ToSemicolon ts) :
    (expect endLine s cause n ts).Leaves ToSemicolon ToSemicolon := by
  cases ts with
  | nil => exact absurd rfl h.ne_nil
  | cons t rest =>
    rw [expect]
    split
    case isTrue ht => exact h.behind_is ht hs
    case isFalse => exact h

theorem expect_semicolon_leaves (cause : SyntaxFault) (n : Nat) {ts : List Token}
    (h : ToSemicolon ts) : (expect endLine .semicolon cause n ts).Leaves (· = []) ToSemicolon := by
  cases ts with
  | nil => exact absurd rfl h.ne_nil
  | cons t rest =>
    rw [expect]
    split
    case isTrue ht => exact h.behind_semicolon ht
    case isFalse => exact h

theorem expect_leftBrace_leaves (cause : SyntaxFault) (n : Nat) {ts : List Token}
    (h : ToSemicolon ts) :
    (expect endLine .leftBrace cause n ts).Leaves (fun _ => False) ToSemicolon := by
  cases ts with
  | nil => exact absurd rfl h.ne_nil
  | cons t rest =>
    rw [expect, if_neg h.is_not.1]
    exact h

theorem not_semicolon_of_holds {level : Level} (hl : .semicolon ∉ level.symbols) {t : Token}
    (h : level.holds t) : ¬ t.is .semicolon := by
  intro ht
  obtain ⟨s, hs, his⟩ := List.any_eq_true.mp h
  exact hl (Token.is_unique ht his ▸ hs)

theorem not_semicolon_of_unary {t : Token} (h : isUnaryOperator t) : ¬ t.is .semicolon := by
  intro ht
  simp [isUnaryOperator, Token.is_other ht] at h

mutual

theorem expression_leaves (n : Nat) (ts : List Token) (h : ToSemicolon ts) :
    (expression endLine n ts).Leaves ToSemicolon ToSemicolon := by
  rw [expression]
  refine (operators_leaves levels (by decide) n ts h).andThen ?_
  intro target n₁ rest hl hr
  cases rest with
  | nil => exact hr
  | cons equals more =>
    have hlt : more.length < ts.length := Nat.lt_of_succ_lt hl
    dsimp only
    split
    case isTrue he =>
      refine (expression_leaves n₁ more (hr.behind_is he (by decide))).andThen ?_
      intro value n₂ rest₂ _ hr₂
      cases target.assigned? value n₂ with
      | none => exact hr₂
      | some => exact hr₂
    case isFalse => exact hr
termination_by ts.length * 20 + 11
decreasing_by all_goals (try simp only [levels, List.length_cons, List.length_nil]); omega

theorem operators_leaves (levels : List Level) (hl : ∀ level ∈ levels, .semicolon ∉ level.symbols)
    (n : Nat) (ts : List Token) (h : ToSemicolon ts) :
    (operators endLine levels n ts).Leaves ToSemicolon ToSemicolon := by
  match levels, hl with
  | [], _ =>
    rw [operators]
    exact unary_leaves n ts h
  | level :: tighter, hl =>
    have hl' : ∀ level ∈ tighter, .semicolon ∉ level.symbols := fun l hm => hl l (by simp [hm])
    rw [operators]
    refine (operators_leaves tighter hl' n ts h).andThen ?_
    intro left n₁ rest _ hr
    exact (operatorChain_leaves level (hl level (by simp)) tighter hl' left n₁ rest hr).within _
termination_by ts.length * 20 + 3 + levels.length
decreasing_by all_goals (try simp only [List.length_cons]); omega

theorem operatorChain_leaves (level : Level) (hlevel : .semicolon ∉ level.symbols)
    (tighter : List Level) (hl : ∀ level ∈ tighter, .semicolon ∉ level.symbols) (left : Expr)
    (n : Nat) (ts : List Token) (h : ToSemicolon ts) :
    (operatorChain endLine level tighter left n ts).Leaves ToSemicolon ToSemicolon := by
  match ts, h with
  | [], h => exact absurd rfl h.ne_nil
  | operator :: rest, h =>
    rw [operatorChain]
    split
    case isTrue ho =>
      refine (operators_leaves tighter hl n rest
        (h.behind (not_semicolon_of_holds hlevel ho))).andThen ?_
      intro right n₁ rest₁ _ hr₁
      exact (operatorChain_leaves level hlevel tighter hl _ n₁ rest₁ hr₁).within _
    case isFalse => exact h
termination_by ts.length * 20 + 4 + tighter.length
decreasing_by all_goals (simp only [List.length_cons]; omega)

theorem unary_leaves (n : Nat) (ts : List Token) (h : ToSemicolon ts) :
    (unary endLine n ts).Leaves ToSemicolon ToSemicolon := by
  match ts, h with
  | [], h => exact absurd rfl h.ne_nil
  | operator :: rest, h =>
    rw [unary]
    split
    case isTrue ho => exact (unary_leaves n rest (h.behind (not_semicolon_of_unary ho))).map _ _
    case isFalse => exact postfixed_leaves n (operator :: rest) h
termination_by ts.length * 20 + 2
decreasing_by all_goals (simp only [List.length_cons]; omega)

theorem postfixed_leaves (n : Nat) (ts : List Token) (h : ToSemicolon ts) :
    (postfixed endLine n ts).Leaves ToSemicolon ToSemicolon := by
  rw [postfixed]
  refine (primary_leaves n ts h).andThen ?_
  intro e n₁ rest _ hr
  exact (suffixes_leaves e n₁ rest hr).within _
termination_by ts.length * 20 + 1
decreasing_by all_goals omega

theorem suffixes_leaves (e : Expr) (n : Nat) (ts : List Token) (h : ToSemicolon ts) :
    (suffixes endLine e n ts).Leaves ToSemicolon ToSemicolon := by
  match ts, h with
  | [], h => exact absurd rfl h.ne_nil
  | t :: rest, h =>
    rw [suffixes]
    split
    case isTrue ht =>
      refine (arguments_leaves n rest (h.behind_is ht (by decide))).andThen ?_
      rintro ⟨es, paren⟩ n₁ rest₁ _ hr₁
      exact (suffixes_leaves (.call e paren es) n₁ rest₁ hr₁).within _
    case isFalse =>
      split
      case isTrue ht =>
        refine (expect_leaves (by decide) _ n (h.behind_is ht (by decide))).andThen ?_
        intro name n₁ rest₁ _ hr₁
        exact (suffixes_leaves (.property e name) n₁ rest₁ hr₁).within _
      case isFalse => exact h
termination_by ts.length * 20
decreasing_by all_goals (simp only [List.length_cons] at *; omega)

theorem arguments_leaves (n : Nat) (ts : List Token) (h : ToSemicolon ts) :
    (arguments endLine n ts).Leaves ToSemicolon ToSemicolon := by
  match ts, h with
  | [], h => exact absurd rfl h.ne_nil
  | t :: rest, h =>
    rw [arguments]
    split
    case isTrue ht => exact h.behind_is ht (by decide)
    case isFalse => exact argumentList_leaves 0 n (t :: rest) h
termination_by ts.length * 20 + 13
decreasing_by all_goals (simp only [List.length_cons]; omega)

theorem argumentList_leaves (count n : Nat) (ts : List Token) (h : ToSemicolon ts) :
    (argumentList endLine count n ts).Leaves ToSemicolon ToSemicolon := by
  rw [argumentList]
  split
  · exact h
  · refine (expression_leaves n ts h).andThen ?_
    intro argument n₁ rest hl hr
    cases rest with
    | nil => exact hr
    | cons t more =>
      have hlt : more.length < ts.length := Nat.lt_of_succ_lt hl
      dsimp only
      split
      case isTrue ht =>
        exact (argumentList_leaves (count + 1) n₁ more (hr.behind_is ht (by decide))).map _ _
      case isFalse =>
        split
        case isTrue ht => exact hr.behind_is ht (by decide)
        case isFalse => exact hr
termination_by ts.length * 20 + 12
decreasing_by all_goals omega

theorem primary_leaves (n : Nat) (ts : List Token) (h : ToSemicolon ts) :
    (primary endLine n ts).Leaves ToSemicolon ToSemicolon := by
  match ts, h with
  | [], h => exact absurd rfl h.ne_nil
  | t :: rest, h =>
    rw [primary]
    have behind : ∀ {s : Symbol}, t.kind = .symbol s → s ≠ .semicolon → ToSemicolon rest :=
      fun hk hs => h.behind_is (Token.is_iff.mpr hk) hs
    split
    case h_1 value hk => exact h.behind fun hs => by simp [Token.is_iff.mp hs] at hk
    case h_2 text hk => exact h.behind fun hs => by simp [Token.is_iff.mp hs] at hk
    case h_3 hk => exact behind hk (by decide)
    case h_4 hk => exact behind hk (by decide)
    case h_5 hk => exact behind hk (by decide)
    case h_6 hk => exact behind hk (by decide)
    case h_7 hk =>
      refine (expect_leaves (by decide) _ n (behind hk (by decide))).andThen ?_
      intro dot n₁ rest₁ _ hr₁
      refine (expect_leaves (by decide) _ n₁ hr₁).andThen ?_
      intro name n₂ rest₂ _ hr₂
      exact hr₂
    case h_8 hk => exact behind hk (by decide)
    case h_9 hk =>
      refine (expression_leaves n rest (behind hk (by decide))).andThen ?_
      intro inner n₁ rest₁ _ hr₁
      exact (expect_leaves (by decide) _ n₁ hr₁).map _ _
    case h_10 => exact h
termination_by ts.length * 20
decreasing_by all_goals (simp only [List.length_cons]; omega)

end

theorem optionalExpression_leaves (stop : Symbol) (n : Nat) {ts : List Token} (h : ToSemicolon ts) :
    (optionalExpression endLine stop n ts).Leaves ToSemicolon ToSemicolon := by
  match ts, h with
  | [], h => exact absurd rfl h.ne_nil
  | t :: rest, h =>
    rw [optionalExpression]
    split
    · exact h
    · exact (expression_leaves n (t :: rest) h).map _ _

theorem letInitializer_leaves (n : Nat) {ts : List Token} (h : ToSemicolon ts) :
    (letInitializer endLine n ts).Leaves ToSemicolon ToSemicolon := by
  match ts, h with
  | [], h => exact absurd rfl h.ne_nil
  | t :: rest, h =>
    rw [letInitializer]
    split
    case isTrue ht => exact (expression_leaves n rest (h.behind_is ht (by decide))).map _ _
    case isFalse => exact h

theorem letDeclaration_leaves (n : Nat) {ts : List Token} (h : ToSemicolon ts) :
    (letDeclaration endLine n ts).Leaves (· = []) ToSemicolon := by
  unfold letDeclaration
  refine (expect_leaves (by decide) _ n h).andThen ?_
  intro name n₁ rest₁ _ hr₁
  refine (letInitializer_leaves n₁ hr₁).andThen ?_
  intro initializer n₂ rest₂ _ hr₂
  exact (expect_semicolon_leaves _ n₂ hr₂).map _ _

theorem constDeclaration_leaves (n : Nat) {ts : List Token} (h : ToSemicolon ts) :
    (constDeclaration endLine n ts).Leaves (· = []) ToSemicolon := by
  unfold constDeclaration
  refine (expect_leaves (by decide) _ n h).andThen ?_
  intro name n₁ rest₁ _ hr₁
  refine (expect_leaves (by decide) _ n₁ hr₁).andThen ?_
  intro equals n₂ rest₂ _ hr₂
  refine (expression_leaves n₂ rest₂ hr₂).andThen ?_
  intro value n₃ rest₃ _ hr₃
  exact (expect_semicolon_leaves _ n₃ hr₃).map _ _

theorem expressionStatement_leaves (n : Nat) {ts : List Token} (h : ToSemicolon ts) :
    (expressionStatement endLine n ts).Leaves (· = []) ToSemicolon := by
  unfold expressionStatement
  refine (expression_leaves n ts h).andThen ?_
  intro e n₁ rest₁ _ hr₁
  exact (expect_semicolon_leaves _ n₁ hr₁).map _ _

theorem printStatement_leaves (n : Nat) {ts : List Token} (h : ToSemicolon ts) :
    (printStatement endLine n ts).Leaves (· = []) ToSemicolon := by
  unfold printStatement
  refine (expression_leaves n ts h).andThen ?_
  intro e n₁ rest₁ _ hr₁
  exact (expect_semicolon_leaves _ n₁ hr₁).map _ _

theorem returnStatement_leaves (keyword : Token) (n : Nat) {ts : List Token} (h : ToSemicolon ts) :
    (returnStatement endLine keyword n ts).Leaves (· = []) ToSemicolon := by
  unfold returnStatement
  refine (optionalExpression_leaves _ n h).andThen ?_
  intro value n₁ rest₁ _ hr₁
  exact (expect_semicolon_leaves _ n₁ hr₁).map _ _

theorem condition_leaves (missing : SyntaxFault) (n : Nat) {ts : List Token} (h : ToSemicolon ts) :
    (condition endLine missing n ts).Leaves ToSemicolon ToSemicolon := by
  unfold condition
  refine (expect_leaves (by decide) _ n h).andThen ?_
  intro left n₁ rest₁ _ hr₁
  refine (expression_leaves n₁ rest₁ hr₁).andThen ?_
  intro e n₂ rest₂ _ hr₂
  exact (expect_leaves (by decide) _ n₂ hr₂).map _ _

theorem superclassClause_leaves (n : Nat) {ts : List Token} (h : ToSemicolon ts) :
    (superclassClause endLine n ts).Leaves ToSemicolon ToSemicolon := by
  cases ts with
  | nil => exact absurd rfl h.ne_nil
  | cons t rest =>
    rw [superclassClause]
    split
    case isTrue ht =>
      refine (expect_leaves (by decide) _ n (h.behind_is ht (by decide))).andThen ?_
      intro name n₁ rest₁ _ hr₁
      exact hr₁
    case isFalse => exact h

/-- A class has a body, and that begins with a brace. -/
theorem classHeading_leaves (n : Nat) {ts : List Token} (h : ToSemicolon ts) :
    (classHeading endLine n ts).Leaves (fun _ => False) ToSemicolon := by
  unfold classHeading
  refine (expect_leaves (by decide) _ n h).andThen ?_
  intro name n₁ rest₁ _ hr₁
  refine (superclassClause_leaves n₁ hr₁).andThen ?_
  intro superclass n₂ rest₂ _ hr₂
  exact (expect_leftBrace_leaves _ n₂ hr₂).map _ _

theorem parameterList_leaves (line count n : Nat) (ts : List Token) (h : ToSemicolon ts) :
    (parameterList endLine line count n ts).Leaves ToSemicolon ToSemicolon := by
  rw [parameterList]
  split
  · exact h
  · refine (expect_leaves (by decide) _ n h).andThen ?_
    intro parameter n₁ rest hl hr
    cases rest with
    | nil => exact hr
    | cons t more =>
      have hlt : more.length < ts.length := Nat.lt_of_succ_lt hl
      dsimp only
      split
      case isTrue ht =>
        exact (parameterList_leaves line (count + 1) n₁ more (hr.behind_is ht (by decide))).map _ _
      case isFalse => exact hr
termination_by ts.length
decreasing_by omega

theorem parameters_leaves (line n : Nat) {ts : List Token} (h : ToSemicolon ts) :
    (parameters endLine line n ts).Leaves ToSemicolon ToSemicolon := by
  match ts, h with
  | [], h => exact absurd rfl h.ne_nil
  | t :: rest, h =>
    rw [parameters]
    split
    · exact h
    · exact (parameterList_leaves line 0 n (t :: rest) h).within _

theorem routineHeading_leaves (kind : Routine) (n : Nat) {ts : List Token} (h : ToSemicolon ts) :
    (routineHeading endLine kind n ts).Leaves (fun _ => False) ToSemicolon := by
  unfold routineHeading
  refine (expect_leaves (by decide) _ n h).andThen ?_
  intro name n₁ rest₁ _ hr₁
  refine (expect_leaves (by decide) _ n₁ hr₁).andThen ?_
  intro left n₂ rest₂ _ hr₂
  refine (parameters_leaves name.line n₂ hr₂).andThen ?_
  intro parameters n₃ rest₃ _ hr₃
  refine (expect_leaves (by decide) _ n₃ hr₃).andThen ?_
  intro right n₄ rest₄ _ hr₄
  exact (expect_leftBrace_leaves _ n₄ hr₄).map _ _

theorem routine_leaves (kind : Routine) (n : Nat) {ts : List Token} (h : ToSemicolon ts) :
    (routine endLine kind n ts).Leaves (fun _ => False) ToSemicolon := by
  rw [routine]
  exact (routineHeading_leaves kind n h).andThen fun _ _ _ _ => False.elim

theorem statement_leaves (n : Nat) (ts : List Token) (h : ToSemicolon ts) :
    (statement endLine n ts).Leaves (· = []) ToSemicolon := by
  match ts, h with
  | [], h => exact absurd rfl h.ne_nil
  | t :: rest, h =>
    rw [statement, if_neg h.is_not.2]
    split
    case isTrue ht =>
      refine (condition_leaves _ n (h.behind_is ht (by decide))).andThen ?_
      intro condition n₁ rest₁ hl hr₁
      refine (statement_leaves n₁ rest₁ hr₁).andThen ?_
      rintro thenBranch n₂ _ _ rfl
      rw [elseClause]
      exact rfl
    case isFalse =>
      split
      case isTrue ht =>
        refine (condition_leaves _ n (h.behind_is ht (by decide))).andThen ?_
        intro condition n₁ rest₁ hl hr₁
        exact (statement_leaves n₁ rest₁ hr₁).map _ _
      case isFalse =>
        split
        case isTrue ht => exact (returnStatement_leaves t n (h.behind_is ht (by decide))).within _
        case isFalse =>
          rw [if_neg h.is_not.1]
          split
          case isTrue ht => exact (printStatement_leaves n (h.behind_is ht (by decide))).within _
          case isFalse => exact expressionStatement_leaves n h
termination_by ts.length
decreasing_by all_goals (simp only [List.length_cons]; omega)

/-- A declaration is read up to the semicolon, or it fails at the semicolon or in front of it. -/
theorem declaration_leaves (n : Nat) {ts : List Token} (h : ToSemicolon ts) :
    (declaration endLine n ts).Leaves (· = []) ToSemicolon := by
  match ts, h with
  | [], h => exact absurd rfl h.ne_nil
  | t :: rest, h =>
    rw [declaration]
    split
    case isTrue ht =>
      exact (classHeading_leaves n (h.behind_is ht (by decide))).andThen fun _ _ _ _ => False.elim
    case isFalse =>
      split
      case isTrue ht =>
        exact (routine_leaves .function n (h.behind_is ht (by decide))).andThen
          fun _ _ _ _ => False.elim
      case isFalse =>
        split
        case isTrue ht => exact (letDeclaration_leaves n (h.behind_is ht (by decide))).within _
        case isFalse =>
          split
          case isTrue ht => exact (constDeclaration_leaves n (h.behind_is ht (by decide))).within _
          case isFalse => exact statement_leaves n (t :: rest) h

end Readings

/-- A statement with its only semicolon at the end. No braces are in it, and the words that begin a
statement stand at most in front. -/
structure Segment (ts : List Token) : Prop where
  ends : ∃ front semicolon, ts = front ++ [semicolon] ∧ semicolon.is .semicolon ∧
    ∀ t ∈ front, ¬ t.is .semicolon
  noBrace : ∀ t ∈ ts, ¬ t.is .leftBrace ∧ ¬ t.is .rightBrace
  noEnd : ∀ t ∈ ts, ¬ t.is .endOfSource
  begins : ∀ t ∈ ts.head?, ¬ t.is .forWord ∧ ¬ t.is .elseWord
  noWord : ∀ t ∈ ts.tail, ∀ s ∈ [Symbol.classWord, .functionWord, .letWord, .constWord, .forWord,
    .ifWord, .whileWord, .printWord, .returnWord], ¬ t.is s

theorem ToSemicolon.of_append {front : List Token} {semicolon : Token}
    (isSemicolon : semicolon.is .semicolon) (noSemicolon : ∀ t ∈ front, ¬ t.is .semicolon)
    (noBrace : ∀ t ∈ front, ¬ t.is .leftBrace) (noFor : ∀ t ∈ front.head?, ¬ t.is .forWord)
    (noStart : ∀ t ∈ (front ++ [semicolon]).tail, ¬ startsStatement t) :
    ToSemicolon (front ++ [semicolon]) := by
  induction front with
  | nil => exact .last isSemicolon
  | cons t front ih =>
    refine .before (noSemicolon t (by simp)) (noBrace t (by simp)) (noFor t rfl) noStart
      (ih (fun u hu => noSemicolon u (by simp [hu])) (fun u hu => noBrace u (by simp [hu])) ?_
        fun u hu => noStart u (List.mem_of_mem_tail hu))
    intro u hu isFor
    refine noStart u ?_ (List.any_eq_true.mpr ⟨.forWord, by simp, isFor⟩)
    exact List.mem_append_left _ (List.mem_of_mem_head? hu)

namespace Segment

variable {ts : List Token}

theorem toSemicolon (h : Segment ts) : ToSemicolon ts := by
  obtain ⟨front, semicolon, rfl, isSemicolon, noSemicolon⟩ := h.ends
  refine .of_append isSemicolon noSemicolon (fun t ht => (h.noBrace t (by simp [ht])).1) ?_ ?_
  · intro t ht
    refine (h.begins t ?_).1
    simp [List.head?_append, Option.mem_def.mp ht]
  · intro t ht starts
    obtain ⟨s, hs, isWord⟩ := List.any_eq_true.mp starts
    exact h.noWord t ht s hs isWord

theorem noElse (h : Segment ts) (more : List Token) : NoElse (ts ++ more) := by
  intro t ht
  obtain ⟨u, rest, rfl⟩ := List.exists_cons_of_ne_nil h.toSemicolon.ne_nil
  exact (h.begins t ht).2

theorem flatten_noElse {segments : List (List Token)} (hs : ∀ s ∈ segments, Segment s) :
    NoElse segments.flatten := by
  cases segments with
  | nil => simp [NoElse]
  | cons s segments => exact (hs s (by simp)).noElse _

end Segment

namespace Listing

variable {endLine : Nat} {ts us : List Token}

theorem synchronize_shorter {more : List Token} (hts : ts ≠ []) (hl : more.length ≤ ts.length) :
    (synchronize more).length < ts.length := by
  cases more with
  | nil => exact List.length_pos_iff.mpr hts
  | cons t more => exact Nat.lt_of_lt_of_le (synchronize_length_lt t more) hl

/-- The errors do not depend on the identities. -/
theorem read_errors_raised (k n : Nat) (ts : List Token) :
    (read endLine (n + k) ts).errors = (read endLine n ts).errors := by
  by_cases hts : ts = []
  · simp [hts, read]
  have alike : Alike (Stmt.raised k) k [] (declaration endLine n ts)
      (declaration endLine (n + k) (ts ++ [])) :=
    declaration_follows noElse_nil n ts fun _ => ⟨rfl, rfl⟩
  rw [List.append_nil] at alike
  cases hd : declaration endLine n ts with
  | done s next more hl =>
    cases hd' : declaration endLine (n + k) ts with
    | failed => rw [hd, hd'] at alike; exact alike.elim
    | done s' next' more' hl' =>
      rw [hd, hd'] at alike
      obtain ⟨-, rfl, rfl⟩ := alike
      rw [read_done hd, read_done hd', List.append_nil]
      exact read_errors_raised k next more
  | failed error more hl =>
    cases hd' : declaration endLine (n + k) ts with
    | done => rw [hd, hd'] at alike; exact alike.elim
    | failed error' more' hl' =>
      rw [hd, hd'] at alike
      obtain ⟨rfl, rfl⟩ := alike
      rw [read_failed hts hd, read_failed hts hd', List.append_nil]
      exact congrArg (error' :: ·) (read_errors_raised k n (synchronize more))
termination_by ts.length
decreasing_by
  · assumption
  · exact synchronize_shorter hts ‹_›

theorem read_errors_zero (n : Nat) (ts : List Token) :
    (read endLine n ts).errors = (read endLine 0 ts).errors := by
  have raised : (read endLine (0 + n) ts).errors = (read endLine 0 ts).errors :=
    read_errors_raised n 0 ts
  rwa [Nat.zero_add] at raised

/-- A statement up to its semicolon is read or costs one error, and the reading goes on behind
it. -/
theorem read_toSemicolon (endLine endLine' : Nat) {s : List Token} (h : ToSemicolon s)
    (noElse : NoElse us) :
    (read endLine 0 s).errors.length ≤ 1 ∧
      (read endLine' 0 (s ++ us)).errors =
        (read endLine 0 s).errors ++ (read endLine' 0 us).errors := by
  have leaves : (declaration endLine 0 s).Leaves (· = []) ToSemicolon := declaration_leaves 0 h
  have follows : Follows endLine endLine' 0 us (Stmt.raised 0) (declaration endLine 0 s)
      (declaration endLine' 0 (s ++ us)) := declaration_follows noElse 0 s
  have hne : s ++ us ≠ [] := by simp [h.ne_nil]
  cases hd : declaration endLine 0 s with
  | done stmt next rest hl =>
    rw [hd] at leaves follows
    cases hd' : declaration endLine' 0 (s ++ us) with
    | failed => rw [hd'] at follows; exact (follows nofun).elim
    | done stmt' next' rest' hl' =>
      rw [hd'] at follows
      obtain ⟨-, rfl, rfl⟩ := follows nofun
      obtain rfl : rest = [] := leaves
      rw [read_done hd, read_done hd']
      simp [read, read_errors_zero]
  | failed error rest hl =>
    rw [hd] at leaves follows
    cases hd' : declaration endLine' 0 (s ++ us) with
    | done => rw [hd'] at follows; exact (follows leaves.ne_nil.elim).elim
    | failed error' rest' hl' =>
      rw [hd'] at follows
      obtain ⟨rfl, rfl⟩ := follows fun hr => absurd hr leaves.ne_nil
      have alone := leaves.synchronize []
      rw [List.append_nil] at alone
      rw [read_failed h.ne_nil hd, read_failed hne hd', alone, leaves.synchronize]
      simp [read]

/-- The errors of a row of statements are those that each has by itself. -/
theorem read_segments {segments : List (List Token)} (hs : ∀ s ∈ segments, Segment s)
    (endLine endLine' : Nat) :
    (read endLine' 0 segments.flatten).errors =
      segments.flatMap fun s => (read endLine 0 s).errors := by
  induction segments with
  | nil => simp [read]
  | cons s segments ih =>
    have later : ∀ s ∈ segments, Segment s := fun s' hs' => hs s' (by simp [hs'])
    have front := read_toSemicolon endLine endLine' (hs s (by simp)).toSemicolon
      (Segment.flatten_noElse later)
    rw [List.flatten_cons, List.flatMap_cons, front.2, ih later]

end Listing

theorem errors_of_ofTokens {ts : List Token} {errors : List SyntaxError}
    (h : Stmt.ofTokens ts = .error errors) : (Listing.ofTokens ts).errors = errors := by
  unfold Stmt.ofTokens at h
  cases hs : (Listing.ofTokens ts).errors <;> simp_all

/-- What tokens that say one statement at most come to: nothing to report, or their error. -/
theorem failures_single {ts : List Token} (h : (Listing.ofTokens ts).errors.length ≤ 1) :
    [Stmt.ofTokens ts].filter (fun result => !result.isOk) =
      (Listing.ofTokens ts).errors.map fun error => .error [error] := by
  unfold Stmt.ofTokens
  match hs : (Listing.ofTokens ts).errors with
  | [] => simp [hs, Except.isOk, Except.toBool]
  | [error] => simp [hs, Except.isOk, Except.toBool]
  | _ :: _ :: _ => simp [hs] at h

/-- Where each of the lists has one error at most, those that fail are as many as the errors. -/
theorem failures_flatMap {segments : List (List Token)} {eof : Token}
    (h : ∀ s ∈ segments, (Listing.ofTokens (s ++ [eof])).errors.length ≤ 1) :
    (segments.map fun s => Stmt.ofTokens (s ++ [eof])).filter (fun result => !result.isOk) =
      (segments.flatMap fun s => (Listing.ofTokens (s ++ [eof])).errors).map fun error =>
        .error [error] := by
  induction segments with
  | nil => rfl
  | cons s segments ih =>
    rw [List.map_cons, List.flatMap_cons, List.map_append, ← failures_single (h s (by simp)),
      ← ih fun s' hs' => h s' (by simp [hs']), ← List.filter_append, List.singleton_append]

/-- Statements in a row are a program if each of them is one. Otherwise the errors are those of the
statements that are none, one for each, in the order of the statements. -/
theorem segments_isolated {segments : List (List Token)} {eof alone : Token}
    (hs : ∀ s ∈ segments, Segment s) (heof : eof.is .endOfSource) (halone : alone.is .endOfSource) :
    ((∃ program, Stmt.ofTokens (segments.flatten ++ [eof]) = .ok program) ↔
        ∀ s ∈ segments, ∃ program, Stmt.ofTokens (s ++ [alone]) = .ok program) ∧
      ∀ errors, Stmt.ofTokens (segments.flatten ++ [eof]) = .error errors →
        (segments.map fun s => Stmt.ofTokens (s ++ [alone])).filter (fun result => !result.isOk) =
          errors.map fun error => .error [error] := by
  have whole : (Listing.ofTokens (segments.flatten ++ [eof])).errors =
      segments.flatMap fun s => (Listing.ofTokens (s ++ [alone])).errors := by
    have hflat : ∀ t ∈ segments.flatten, ¬ t.is .endOfSource := by
      intro t ht
      obtain ⟨s, hm, ht⟩ := List.mem_flatten.mp ht
      exact (hs s hm).noEnd t ht
    rw [Listing.ofTokens, beforeEnd_append hflat heof, Listing.read_segments hs alone.line]
    refine List.flatMap_congr fun s hm => ?_
    rw [Listing.ofTokens, beforeEnd_append (hs s hm).noEnd halone,
      endLine_append (hs s hm).noEnd halone]
  have single : ∀ s ∈ segments, (Listing.ofTokens (s ++ [alone])).errors.length ≤ 1 := by
    intro s hm
    rw [Listing.ofTokens, beforeEnd_append (hs s hm).noEnd halone]
    exact (Listing.read_toSemicolon _ 0 (hs s hm).toSemicolon noElse_nil).1
  constructor
  · simp only [ofTokens_eq_ok_iff, exists_eq_right', whole, List.flatMap_eq_nil_iff]
  · intro errors herrors
    rw [← errors_of_ofTokens herrors, whole]
    exact failures_flatMap single

namespace TwoFaults

def symbol (s : Symbol) (line : Nat) : Token := ⟨.symbol s, s.name, line⟩

/-- `let ;` -/
def unnamed : List Token := [symbol .letWord 1, symbol .semicolon 1]

/-- `a;` -/
def sound : List Token := [symbol .identifier 2, symbol .semicolon 2]

/-- `a() = a;` -/
def misdirected : List Token :=
  [symbol .identifier 3, symbol .leftParen 3, symbol .rightParen 3, symbol .equal 4,
    symbol .identifier 5, symbol .semicolon 5]

def segments : List (List Token) := [unnamed, sound, misdirected]

theorem segments_valid : ∀ s ∈ segments, Segment s := by
  have unnamed_valid : Segment unnamed :=
    ⟨⟨[symbol .letWord 1], symbol .semicolon 1, rfl, rfl, by decide⟩, by decide, by decide,
      by simp [unnamed, symbol, Token.is], by decide⟩
  have sound_valid : Segment sound :=
    ⟨⟨[symbol .identifier 2], symbol .semicolon 2, rfl, rfl, by decide⟩, by decide, by decide,
      by simp [sound, symbol, Token.is], by decide⟩
  have misdirected_valid : Segment misdirected :=
    ⟨⟨misdirected.dropLast, symbol .semicolon 5, rfl, rfl, by decide⟩, by decide, by decide,
      by simp [misdirected, symbol, Token.is], by decide⟩
  simp [segments, unnamed_valid, sound_valid, misdirected_valid]

theorem both_reported :
    (∀ s ∈ segments, Segment s) ∧
      Stmt.ofTokens (segments.flatten ++ [symbol .endOfSource 6]) =
        .error [⟨.variableName, 1⟩, ⟨.assignmentTarget, 4⟩] ∧
      (segments.map fun s => Stmt.ofTokens (s ++ [symbol .endOfSource 9])).filter
        (fun result => !result.isOk) =
          [.error [⟨.variableName, 1⟩], .error [⟨.assignmentTarget, 4⟩]] := by
  have read : Stmt.ofTokens (segments.flatten ++ [symbol .endOfSource 6]) =
      .error [⟨.variableName, 1⟩, ⟨.assignmentTarget, 4⟩] := by with_unfolding_all rfl
  have isEnd : ∀ line, (symbol .endOfSource line).is .endOfSource := fun _ => rfl
  exact ⟨segments_valid, read,
    (segments_isolated segments_valid (isEnd 6) (isEnd 9)).2 _ read⟩

end TwoFaults

end ClassScript
