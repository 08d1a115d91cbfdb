import ClassScript.Proofs.Syntax.Grammar
import ClassScript.Proofs.Syntax.Numbering

/-! What is read is derived: a rule that reads an expression or a statement takes tokens off the
front which derive it. -/
namespace ClassScript.Grammar

/-- The operators of a level have this rank, and its node is the tree of an operation. -/
structure Ranks (level : Level) (rank : Nat) : Prop where
  holds : ∀ t, level.holds t ↔ rank? t = some rank
  node : ∀ left t right, level.holds t →
    (level.node left t right).unnumbered = joined left.unnumbered t right.unnumbered

/-- Levels of increasing rank, from this one up to the highest. -/
def Ranked : Nat → List Level → Prop
  | rank, [] => rank = 8
  | rank, level :: tighter => Ranks level rank ∧ Ranked (rank + 1) tighter

theorem rank?_symbol {t : Token} {rank : Nat} (h : rank? t = some rank) :
    ∃ s, t.kind = .symbol s := by
  unfold rank? at h
  cases hk : t.kind with
  | symbol s => exact ⟨s, rfl⟩
  | string text => simp [hk] at h
  | number value => simp [hk] at h

theorem ranked_levels : Ranked 1 levels := by
  refine ⟨?_, ?_, ?_, ?_, ?_, ?_, ?_, rfl⟩
  all_goals
    refine ⟨fun t => ?_, fun left t right ht => ?_⟩
    · simp only [Level.holds, rank?, List.any_cons, List.any_nil, Bool.or_false, Token.is]
      cases t.kind with
      | symbol s => cases s <;> decide
      | string text => simp
      | number value => simp
    · simp only [Level.holds, List.any_cons, List.any_nil, Bool.or_false, Bool.or_eq_true,
        Token.is_iff] at ht
      grind [Token.is, joined, Expr.unnumbered]

/-- What may stand on the left of an assignment. -/
def IsTarget : Expr → Prop
  | .var _ _ | .property _ _ => True
  | _ => False

theorem joined_not_target {left right : Expr} {operator : Token} :
    ¬ IsTarget (joined left operator right) := by
  unfold joined
  split <;> exact id

/-- An operation that could be assigned to joins nothing. -/
theorem Phrase.Derives.target {rank : Nat} {e : Expr} {ts : List Token}
    (h : (Phrase.operation rank e).Derives ts) (he : IsTarget e) : (Phrase.call e).Derives ts := by
  generalize hp : Phrase.operation rank e = phrase at h
  induction h generalizing rank with
  | join => cases hp; exact absurd he joined_not_target
  | operand _ ih => cases hp; exact ih rfl
  | factor h =>
    cases hp
    cases h with
    | prefixed => cases he
    | call h => exact h
  | _ => cases hp

theorem assigned?_derives {target value e : Expr} {equals : Token} {n next : Nat}
    {ts us : List Token} (h : target.assigned? value n = some (e, next))
    (ht : (Phrase.operation 1 target.unnumbered).Derives ts) (he : equals.is .equal)
    (hv : (Phrase.expression value.unnumbered).Derives us) :
    (Phrase.expression e.unnumbered).Derives (ts ++ equals :: us) := by
  unfold Expr.assigned? at h
  split at h
  · cases h
    cases ht.target trivial with
    | primary hp =>
      cases hp with
      | name hn => exact .assign hn he hv
  · cases h
    cases ht.target trivial with
    | primary hp => cases hp
    | property ho hd hn =>
      simpa [Expr.unnumbered] using Phrase.Derives.setProperty ho hd hn he hv
  · cases h

/-- A reading takes tokens off the front that derive what it gives. -/
def Takes {α : Type} (derives : α → List Token → Prop) (ts : List Token) (v : α) (_ : Nat)
    (rest : List Token) : Prop := ∃ used, ts = used ++ rest ∧ derives v used

/-- The tokens derive the expression that was read. -/
abbrev Phrase.Reads (phrase : Expr → Phrase) (e : Expr) : List Token → Prop :=
  (phrase e.unnumbered).Derives

/-- The tokens, behind others, make a phrase of the expression that was read. -/
abbrev Phrase.Extends (phrase : Expr → Phrase) (before : List Token) (e : Expr)
    (used : List Token) : Prop :=
  (phrase e.unnumbered).Derives (before ++ used)

theorem Takes.done {phrase : Expr → Phrase} {before ts : List Token} {e : Expr} (n : Nat)
    (h : (phrase e.unnumbered).Derives before) : Takes (Phrase.Extends phrase before) ts e n ts :=
  ⟨[], rfl, by simpa [Phrase.Extends] using h⟩

/-- Arguments that follow `count` others were read with the parenthesis behind them, and together
they are not too many. -/
def ArgumentsDerived (count : Nat) (ts : List Token) (v : List Expr × Token) (_ : Nat)
    (rest : List Token) : Prop :=
  ∃ used, ts = used ++ v.2 :: rest ∧ (Phrase.arguments (Expr.unnumberedAll v.1)).Derives used ∧
    count + v.1.length ≤ 255 ∧ v.2.is .rightParen

section Expressions

variable {endLine : Nat}

mutual

theorem expression_derives (n : Nat) (ts : List Token) :
    (expression endLine n ts).Gives (Takes (Phrase.Reads .expression) ts) := by
  rw [expression]
  refine (operators_derives levels 1 ranked_levels n ts).andThen ?_
  rintro target n₁ rest hl ⟨used, hs, ht⟩
  cases rest with
  | nil => exact ⟨used, hs, .operation ht⟩
  | cons equals more =>
    have hlt : more.length < ts.length := Nat.lt_of_succ_lt hl
    dsimp only
    split
    case isTrue he =>
      refine (expression_derives n₁ more).andThen ?_
      rintro value n₂ rest' - ⟨used', rfl, hv⟩
      split
      case h_1 e next ha =>
        exact ⟨used ++ equals :: used', by simp [hs], assigned?_derives ha ht he hv⟩
      case h_2 => trivial
    case isFalse => exact ⟨used, hs, .operation ht⟩
termination_by ts.length * 20 + 11
decreasing_by all_goals (try simp only [levels, List.length_cons, List.length_nil]); omega

theorem operators_derives (levels : List Level) (rank : Nat) (hr : Ranked rank levels) (n : Nat)
    (ts : List Token) :
    (operators endLine levels n ts).Gives (Takes (Phrase.Reads (.operation rank)) ts) := by
  match levels, hr with
  | [], hr =>
    rw [operators]
    refine (unary_derives n ts).imp ?_
    rintro e n₁ rest ⟨used, rfl, h⟩
    exact ⟨used, rfl, hr ▸ .factor h⟩
  | level :: tighter, ⟨hlevel, htighter⟩ =>
    rw [operators]
    refine (operators_derives tighter (rank + 1) htighter n ts).andThen ?_
    rintro left n₁ rest hl ⟨used, hs, h⟩
    refine ((operatorChain_derives level rank hlevel tighter htighter left n₁ rest
      (.operand h)).within _).imp ?_
    rintro e n₂ rest' ⟨used', rfl, h'⟩
    exact ⟨used ++ used', by simp [hs], h'⟩
termination_by ts.length * 20 + 3 + levels.length
decreasing_by all_goals (try simp only [List.length_cons, List.length_nil]); omega

theorem operatorChain_derives (level : Level) (rank : Nat) (hlevel : Ranks level rank)
    (tighter : List Level) (htighter : Ranked (rank + 1) tighter) (left : Expr)
    {before : List Token} (n : Nat) (ts : List Token)
    (h : (Phrase.operation rank left.unnumbered).Derives before) :
    (operatorChain endLine level tighter left n ts).Gives
      (Takes (Phrase.Extends (.operation rank) before) ts) := by
  cases ts with
  | nil =>
    rw [operatorChain]
    exact .done n h
  | cons operator rest =>
    rw [operatorChain]
    split
    case isTrue ho =>
      refine (operators_derives tighter (rank + 1) htighter n rest).andThen ?_
      rintro right n₁ rest₁ hlt ⟨used, hs, hright⟩
      have hjoin := Phrase.Derives.join h ((hlevel.holds operator).mp ho) hright
      rw [← hlevel.node left operator right ho] at hjoin
      refine ((operatorChain_derives level rank hlevel tighter htighter _ n₁ rest₁
        hjoin).within _).imp ?_
      rintro e n₂ rest₂ ⟨used', rfl, h'⟩
      exact ⟨operator :: (used ++ used'), by simp [hs], by simpa [Phrase.Extends] using h'⟩
    case isFalse => exact .done n h
termination_by ts.length * 20 + 4 + tighter.length
decreasing_by all_goals (simp only [List.length_cons]; omega)

theorem unary_derives (n : Nat) (ts : List Token) :
    (unary endLine n ts).Gives (Takes (Phrase.Reads .unary) ts) := by
  have operand {ts : List Token}
    (hp : (postfixed endLine n ts).Gives (Takes (Phrase.Reads .call) ts)) :
      (postfixed endLine n ts).Gives (Takes (Phrase.Reads .unary) ts) := by
    refine hp.imp ?_
    rintro e n₁ rest ⟨used, rfl, h⟩
    exact ⟨used, rfl, .call h⟩
  cases ts with
  | nil =>
    rw [unary]
    exact operand (postfixed_derives n [])
  | cons operator rest =>
    rw [unary]
    split
    case isTrue ho =>
      refine (unary_derives n rest).map ?_
      rintro e n₁ rest₁ ⟨used, rfl, h⟩
      refine ⟨operator :: used, rfl, .prefixed ?_ h⟩
      simpa [isUnaryOperator, or_assoc] using ho
    case isFalse => exact operand (postfixed_derives n (operator :: rest))
termination_by ts.length * 20 + 2
decreasing_by all_goals (simp only [List.length_cons, List.length_nil]; omega)

theorem postfixed_derives (n : Nat) (ts : List Token) :
    (postfixed endLine n ts).Gives (Takes (Phrase.Reads .call) ts) := by
  rw [postfixed]
  refine (primary_derives n ts).andThen ?_
  rintro e n₁ rest hl ⟨used, hs, h⟩
  refine ((suffixes_derives e n₁ rest (.primary h)).within _).imp ?_
  rintro e' n₂ rest' ⟨used', rfl, h'⟩
  exact ⟨used ++ used', by simp [hs], h'⟩
termination_by ts.length * 20 + 1
decreasing_by all_goals omega

theorem suffixes_derives (e : Expr) {before : List Token} (n : Nat) (ts : List Token)
    (h : (Phrase.call e.unnumbered).Derives before) :
    (suffixes endLine e n ts).Gives (Takes (Phrase.Extends .call before) ts) := by
  cases ts with
  | nil =>
    rw [suffixes]
    exact .done n h
  | cons t rest =>
    rw [suffixes]
    split
    case isTrue ho =>
      refine (arguments_derives n rest h ho).andThen ?_
      rintro ⟨es, paren⟩ n₁ rest₁ hlt ⟨used, hs, hcall⟩
      refine ((suffixes_derives (.call e paren es) n₁ rest₁ hcall).within _).imp ?_
      rintro e' n₂ rest₂ ⟨used', rfl, h'⟩
      exact ⟨used ++ used', by simp [hs], by simpa [Phrase.Extends] using h'⟩
    case isFalse =>
      split
      case isTrue hd =>
        refine expect_gives.andThen ?_
        rintro name n₁ rest₁ hlt ⟨rfl, hn, rfl⟩
        have hprop := Phrase.Derives.property h hd hn
        refine ((suffixes_derives (.property e name) n₁ rest₁ hprop).within _).imp ?_
        rintro e' n₂ rest₂ ⟨used', rfl, h'⟩
        exact ⟨t :: name :: used', by simp, by simpa [Phrase.Extends] using h'⟩
      case isFalse => exact .done n h
termination_by ts.length * 20
decreasing_by all_goals (simp only [List.length_cons] at *; omega)

theorem arguments_derives {callee : Expr} {before : List Token} {left : Token} (n : Nat)
    (ts : List Token) (h : (Phrase.call callee.unnumbered).Derives before)
    (ho : left.is .leftParen) :
    (arguments endLine n ts).Gives fun v next rest =>
      Takes (Phrase.Extends .call before) (left :: ts) (.call callee v.2 v.1) next rest := by
  have applied {ts : List Token}
      (hp : (argumentList endLine 0 n ts).Gives (ArgumentsDerived 0 ts)) :
      (argumentList endLine 0 n ts).Gives fun v next rest =>
        Takes (Phrase.Extends .call before) (left :: ts) (.call callee v.2 v.1) next rest := by
    refine hp.imp ?_
    rintro ⟨es, paren⟩ n₁ rest ⟨used, rfl, hes, hfew, hc⟩
    refine ⟨left :: (used ++ [paren]), by simp, ?_⟩
    have hcall := Phrase.Derives.apply h ho hes (by simpa using hfew) hc
    simpa [Phrase.Extends, Expr.unnumbered] using hcall
  cases ts with
  | nil =>
    rw [arguments]
    exact applied (argumentList_derives 0 n [])
  | cons t rest =>
    rw [arguments]
    split
    case isTrue hc => exact ⟨[left, t], rfl, .applyNone h ho hc⟩
    case isFalse => exact applied (argumentList_derives 0 n (t :: rest))
termination_by ts.length * 20 + 13
decreasing_by all_goals (simp only [List.length_cons, List.length_nil]; omega)

theorem argumentList_derives (count n : Nat) (ts : List Token) :
    (argumentList endLine count n ts).Gives (ArgumentsDerived count ts) := by
  rw [argumentList]
  split
  case isTrue => trivial
  case isFalse hcount =>
    simp only [maxArguments] at hcount
    refine (expression_derives n ts).andThen ?_
    rintro argument n₁ rest hl ⟨used, hs, ha⟩
    cases rest with
    | nil => trivial
    | cons t more =>
      have hlt : more.length < ts.length := Nat.lt_of_succ_lt hl
      dsimp only
      split
      case isTrue hcomma =>
        refine (argumentList_derives (count + 1) n₁ more).map ?_
        rintro ⟨es, paren⟩ n₂ rest₂ ⟨used', rfl, hes, hfew, hc⟩
        refine ⟨used ++ t :: used', by simp [hs], .argument ha hcomma hes, ?_, hc⟩
        simp only [List.length_cons] at hfew ⊢
        omega
      case isFalse =>
        split
        case isTrue hc =>
          refine ⟨used, hs, .lastArgument ha, ?_, hc⟩
          simp only [List.length_cons, List.length_nil]
          omega
        case isFalse => trivial
termination_by ts.length * 20 + 12
decreasing_by all_goals omega

theorem primary_derives (n : Nat) (ts : List Token) :
    (primary endLine n ts).Gives (Takes (Phrase.Reads .primary) ts) := by
  cases ts with
  | nil =>
    rw [primary]
    trivial
  | cons t rest =>
    rw [primary]
    split
    case h_1 hk => exact ⟨[t], rfl, .number hk⟩
    case h_2 hk => exact ⟨[t], rfl, .string hk⟩
    case h_3 hk => exact ⟨[t], rfl, .false (Token.is_iff.mpr hk)⟩
    case h_4 hk => exact ⟨[t], rfl, .true (Token.is_iff.mpr hk)⟩
    case h_5 hk => exact ⟨[t], rfl, .null (Token.is_iff.mpr hk)⟩
    case h_6 hk => exact ⟨[t], rfl, .this (Token.is_iff.mpr hk)⟩
    case h_7 hk =>
      refine expect_gives.andThen ?_
      rintro dot n₁ rest₁ hlt ⟨rfl, hd, rfl⟩
      refine expect_gives.andThen ?_
      rintro name n₂ rest₂ hlt' ⟨rfl, hn, rfl⟩
      exact ⟨[t, dot, name], rfl, .super (Token.is_iff.mpr hk) hd hn⟩
    case h_8 hk => exact ⟨[t], rfl, .name (Token.is_iff.mpr hk)⟩
    case h_9 hk =>
      refine (expression_derives n rest).andThen ?_
      rintro inner n₁ rest₁ hlt ⟨used, rfl, h⟩
      refine expect_gives.map ?_
      rintro close n₂ rest₂ ⟨rfl, hc, rfl⟩
      exact ⟨t :: (used ++ [close]), by simp, .group (Token.is_iff.mpr hk) h hc⟩
    case h_10 => trivial
termination_by ts.length * 20
decreasing_by all_goals (simp only [List.length_cons]; omega)

end

end Expressions

/-- The tokens do not begin with `else`. -/
def NoElse (rest : List Token) : Prop := ∀ t ∈ rest.head?, ¬ t.is .elseWord

/-- A reading takes a statement off the front, and leaves no `else` that would belong to it. -/
def TakesStatement (ts : List Token) (s : Stmt) (_ : Nat) (rest : List Token) : Prop :=
  ∃ used dangling, ts = used ++ rest ∧ (Sentence.statement dangling s.unnumbered).Derives used ∧
    (dangling → NoElse rest)

theorem forLoop_unnumbered (initializer : Option Stmt) (condition step : Option Expr)
    (body : Stmt) : (Stmt.forLoop initializer condition step body).unnumbered =
      preceded (.loop ((condition.map Expr.unnumbered).getD (.literal (.bool true)))
        (stepped body.unnumbered (step.map Expr.unnumbered)))
        (Stmt.unnumberedOption initializer) := by
  cases initializer <;> cases condition <;> cases step <;>
    simp [Stmt.forLoop, preceded, stepped, Stmt.unnumbered, Stmt.unnumberedAll,
      Stmt.unnumberedOption, Expr.unnumbered]

section Statements

variable {endLine : Nat}

theorem optionalExpression_derives (stop : Symbol) (n : Nat) (ts : List Token) :
    (optionalExpression endLine stop n ts).Gives
      (Takes (fun e => Perhaps (e.map Expr.unnumbered)) ts) := by
  have given : ∀ ts e next rest, Takes (Phrase.Reads .expression) ts e next rest →
      Takes (fun e => Perhaps (e.map Expr.unnumbered)) ts (some e) next rest := by
    rintro ts e next rest ⟨used, rfl, h⟩
    exact ⟨used, rfl, .some h⟩
  unfold optionalExpression
  split
  · split
    · exact ⟨[], rfl, .none⟩
    · exact (expression_derives n _).map (given _)
  · exact (expression_derives n _).map (given _)

theorem letInitializer_derives (n : Nat) (ts : List Token) :
    (letInitializer endLine n ts).Gives
      (Takes (fun e => Initializer (e.map Expr.unnumbered)) ts) := by
  unfold letInitializer
  split
  · split
    case isTrue isEqual =>
      refine (expression_derives n _).map ?_
      rintro e next rest ⟨used, rfl, h⟩
      exact ⟨_ :: used, rfl, .some isEqual h⟩
    case isFalse => exact ⟨[], rfl, .none⟩
  · exact ⟨[], rfl, .none⟩

theorem letDeclaration_derives {keyword : Token} (isLet : keyword.is .letWord) (n : Nat)
    (ts : List Token) :
    (letDeclaration endLine n ts).Gives
      (Takes (fun s => LetDecl s.unnumbered) (keyword :: ts)) := by
  unfold letDeclaration
  refine expect_gives.andThen ?_
  rintro name n₁ rest₁ - ⟨rfl, isName, rfl⟩
  refine (letInitializer_derives n₁ rest₁).andThen ?_
  rintro e n₂ rest₂ - ⟨used, rfl, value⟩
  refine expect_gives.map ?_
  rintro semicolon n₃ rest₃ ⟨rfl, ends, rfl⟩
  refine ⟨keyword :: name :: (used ++ [semicolon]), by simp, ?_⟩
  exact LetDecl.mk isLet isName value ends

theorem constDeclaration_derives {keyword : Token} (isConst : keyword.is .constWord) (n : Nat)
    (ts : List Token) :
    (constDeclaration endLine n ts).Gives
      (Takes (fun s => (Sentence.declaration s.unnumbered).Derives) (keyword :: ts)) := by
  unfold constDeclaration
  refine expect_gives.andThen ?_
  rintro name n₁ rest₁ - ⟨rfl, isName, rfl⟩
  refine expect_gives.andThen ?_
  rintro equals n₂ rest₂ - ⟨rfl, isEqual, rfl⟩
  refine (expression_derives n₂ rest₂).andThen ?_
  rintro e n₃ rest₃ - ⟨used, rfl, value⟩
  refine expect_gives.map ?_
  rintro semicolon n₄ rest₄ ⟨rfl, ends, rfl⟩
  refine ⟨keyword :: name :: equals :: (used ++ [semicolon]), by simp, ?_⟩
  exact Sentence.Derives.constDecl isConst isName isEqual value ends

theorem expressionStatement_derives (n : Nat) (ts : List Token) :
    (expressionStatement endLine n ts).Gives (Takes (fun s => ExprStmt s.unnumbered) ts) := by
  unfold expressionStatement
  refine (expression_derives n ts).andThen ?_
  rintro e n₁ rest₁ - ⟨used, rfl, h⟩
  refine expect_gives.map ?_
  rintro semicolon n₂ rest₂ ⟨rfl, ends, rfl⟩
  refine ⟨used ++ [semicolon], by simp, ?_⟩
  exact ExprStmt.mk h ends

theorem printStatement_derives {keyword : Token} (isPrint : keyword.is .printWord) (n : Nat)
    (ts : List Token) :
    (printStatement endLine n ts).Gives (TakesStatement (keyword :: ts)) := by
  unfold printStatement
  refine (expression_derives n ts).andThen ?_
  rintro e n₁ rest₁ - ⟨used, rfl, h⟩
  refine expect_gives.map ?_
  rintro semicolon n₂ rest₂ ⟨rfl, ends, rfl⟩
  refine ⟨keyword :: (used ++ [semicolon]), false, by simp, ?_, by simp⟩
  exact Sentence.Derives.printStmt isPrint h ends

theorem returnStatement_derives {keyword : Token} (isReturn : keyword.is .returnWord) (n : Nat)
    (ts : List Token) :
    (returnStatement endLine keyword n ts).Gives (TakesStatement (keyword :: ts)) := by
  unfold returnStatement
  refine (optionalExpression_derives _ n ts).andThen ?_
  rintro value n₁ rest₁ - ⟨used, rfl, h⟩
  refine expect_gives.map ?_
  rintro semicolon n₂ rest₂ ⟨rfl, ends, rfl⟩
  refine ⟨keyword :: (used ++ [semicolon]), false, by simp, ?_, by simp⟩
  exact Sentence.Derives.returnStmt isReturn h ends

theorem condition_derives (missing : SyntaxFault) (n : Nat) (ts : List Token) :
    (condition endLine missing n ts).Gives (Takes (fun e => Condition e.unnumbered) ts) := by
  unfold condition
  refine expect_gives.andThen ?_
  rintro left n₁ rest₁ - ⟨rfl, isOpen, rfl⟩
  refine (expression_derives n₁ rest₁).andThen ?_
  rintro e n₂ rest₂ - ⟨used, rfl, h⟩
  refine expect_gives.map ?_
  rintro right n₃ rest₃ ⟨rfl, isClose, rfl⟩
  exact ⟨left :: (used ++ [right]), by simp, .mk isOpen h isClose⟩

theorem forInitializer_derives (n : Nat) (ts : List Token) :
    (forInitializer endLine n ts).Gives
      (Takes (fun s => ForInitializer (Stmt.unnumberedOption s)) ts) := by
  have given : ∀ ts s next rest, Takes (fun s => ExprStmt s.unnumbered) ts s next rest →
      Takes (fun s => ForInitializer (Stmt.unnumberedOption s)) ts (some s) next rest := by
    rintro ts s next rest ⟨used, rfl, h⟩
    exact ⟨used, rfl, .exprStmt h⟩
  unfold forInitializer
  split
  · split
    case isTrue ends => exact ⟨[_], rfl, .none ends⟩
    case isFalse =>
      split
      case isTrue isLet =>
        refine (letDeclaration_derives isLet n _).map ?_
        rintro s next rest ⟨used, hs, h⟩
        exact ⟨used, hs, .letDecl h⟩
      case isFalse => exact (expressionStatement_derives n _).map (given _)
  · exact (expressionStatement_derives n _).map (given _)

theorem forClauses_derives (n : Nat) (ts : List Token) :
    (forClauses endLine n ts).Gives (Takes (fun (initializer, condition, step) =>
      ForClauses (Stmt.unnumberedOption initializer, condition.map Expr.unnumbered,
        step.map Expr.unnumbered)) ts) := by
  unfold forClauses
  refine expect_gives.andThen ?_
  rintro left n₁ rest₁ - ⟨rfl, isOpen, rfl⟩
  refine (forInitializer_derives n₁ rest₁).andThen ?_
  rintro initializer n₂ rest₂ - ⟨is, rfl, first⟩
  refine (optionalExpression_derives _ n₂ rest₂).andThen ?_
  rintro condition n₃ rest₃ - ⟨cs, rfl, second⟩
  refine expect_gives.andThen ?_
  rintro semicolon n₄ rest₄ - ⟨rfl, isSemicolon, rfl⟩
  refine (optionalExpression_derives _ n₄ rest₄).andThen ?_
  rintro step n₅ rest₅ - ⟨ss, rfl, third⟩
  refine expect_gives.map ?_
  rintro right n₆ rest₆ ⟨rfl, isClose, rfl⟩
  exact ⟨left :: (is ++ (cs ++ semicolon :: (ss ++ [right]))), by simp,
    .mk isOpen first second isSemicolon third isClose⟩

theorem superclassClause_derives (n : Nat) (ts : List Token) :
    (superclassClause endLine n ts).Gives
      (Takes (fun e => Heritage (e.map Expr.unnumbered)) ts) := by
  unfold superclassClause
  split
  · split
    case isTrue isExtends =>
      refine expect_gives.andThen ?_
      rintro name n₁ rest₁ - ⟨rfl, isName, rfl⟩
      exact ⟨[_, name], rfl, .some isExtends isName⟩
    case isFalse => exact ⟨[], rfl, .none⟩
  · exact ⟨[], rfl, .none⟩

/-- The tokens are the name of a class and of the class it extends, up to the opening brace. -/
def HeadsClass (heading : Token × Option Expr) (used : List Token) : Prop :=
  ∃ hs left, used = heading.1 :: (hs ++ [left]) ∧ heading.1.is .identifier ∧
    Heritage (heading.2.map Expr.unnumbered) hs ∧ left.is .leftBrace

theorem classHeading_derives (n : Nat) (ts : List Token) :
    (classHeading endLine n ts).Gives (Takes HeadsClass ts) := by
  unfold classHeading
  refine expect_gives.andThen ?_
  rintro name n₁ rest₁ - ⟨rfl, isName, rfl⟩
  refine (superclassClause_derives n₁ rest₁).andThen ?_
  rintro superclass n₂ rest₂ - ⟨hs, rfl, heritage⟩
  refine expect_gives.map ?_
  rintro left n₃ rest₃ ⟨rfl, isOpen, rfl⟩
  exact ⟨name :: (hs ++ [left]), by simp, hs, left, rfl, isName, heritage, isOpen⟩

theorem parameterList_derives (line count n : Nat) (ts : List Token) :
    (parameterList endLine line count n ts).Gives (Takes (fun names used =>
      Parameters names used ∧ count + names.length ≤ 255) ts) := by
  rw [parameterList]
  split
  case isTrue => trivial
  case isFalse hcount =>
    simp only [maxArguments] at hcount
    refine expect_gives.andThen ?_
    rintro name n₁ rest hl ⟨hs, isName, rfl⟩
    have last : Takes (fun names used => Parameters names used ∧ count + names.length ≤ 255) ts
        [name] n₁ rest := by
      refine ⟨[name], hs, .last isName, ?_⟩
      simp only [List.length_cons, List.length_nil]
      omega
    cases rest with
    | nil => exact last
    | cons t more =>
      have hlt : more.length < ts.length := Nat.lt_of_succ_lt hl
      dsimp only
      split
      case isTrue isComma =>
        refine (parameterList_derives line (count + 1) n₁ more).map ?_
        rintro names n₂ rest₂ ⟨used, rfl, h, few⟩
        refine ⟨name :: t :: used, by simp [hs], .more isName isComma h, ?_⟩
        simp only [List.length_cons]
        omega
      case isFalse => exact last
termination_by ts.length
decreasing_by omega

theorem parameters_derives (line n : Nat) (ts : List Token) :
    (parameters endLine line n ts).Gives (Takes (fun names used =>
      ParametersOrNone names used ∧ names.length ≤ 255) ts) := by
  have given : ∀ ts, (parameterList endLine line 0 n ts).Gives (Takes (fun names used =>
      ParametersOrNone names used ∧ names.length ≤ 255) ts) := by
    intro ts
    refine (parameterList_derives line 0 n ts).imp ?_
    rintro names next rest ⟨used, rfl, h, few⟩
    exact ⟨used, rfl, .some h, by simpa using few⟩
  unfold parameters
  split
  · split
    · exact ⟨[], rfl, .none, by simp⟩
    · exact (given _).within _
  · exact (given _).within _

/-- The tokens are the name and the parameters of a routine, up to the opening brace. -/
def HeadsRoutine (heading : Token × List Token) (used : List Token) : Prop :=
  ∃ left ps right leftBrace, used = heading.1 :: left :: (ps ++ [right, leftBrace]) ∧
    heading.1.is .identifier ∧ left.is .leftParen ∧ ParametersOrNone heading.2 ps ∧
    heading.2.length ≤ 255 ∧ right.is .rightParen ∧ leftBrace.is .leftBrace

theorem routineHeading_derives (kind : Routine) (n : Nat) (ts : List Token) :
    (routineHeading endLine kind n ts).Gives (Takes HeadsRoutine ts) := by
  unfold routineHeading
  refine expect_gives.andThen ?_
  rintro name n₁ rest₁ - ⟨rfl, isName, rfl⟩
  refine expect_gives.andThen ?_
  rintro left n₂ rest₂ - ⟨rfl, isOpen, rfl⟩
  refine (parameters_derives name.line n₂ rest₂).andThen ?_
  rintro names n₃ rest₃ - ⟨ps, rfl, h, few⟩
  refine expect_gives.andThen ?_
  rintro right n₄ rest₄ - ⟨rfl, isClose, rfl⟩
  refine expect_gives.map ?_
  rintro leftBrace n₅ rest₅ ⟨rfl, isOpenBrace, rfl⟩
  exact ⟨name :: left :: (ps ++ [right, leftBrace]), by simp, left, ps, right, leftBrace, rfl,
    isName, isOpen, h, few, isClose, isOpenBrace⟩

/-- The tokens are the rest of a block and its closing brace. -/
def EndsBlock (ss : List Stmt) (used : List Token) : Prop :=
  ∃ body right, used = body ++ [right] ∧
    (Sentence.declarations (Stmt.unnumberedAll ss)).Derives body ∧ right.is .rightBrace

/-- The tokens are the members of a class and its closing brace. -/
def EndsClass (ds : List FunctionDecl × List FunctionDecl) (used : List Token) : Prop :=
  ∃ body right, used = body ++ [right] ∧
    (Sentence.members (FunctionDecl.unnumberedAll ds.1) (FunctionDecl.unnumberedAll ds.2)).Derives
      body ∧ right.is .rightBrace

mutual

theorem declaration_derives (n : Nat) (ts : List Token) :
    (declaration endLine n ts).Gives
      (Takes (fun s => (Sentence.declaration s.unnumbered).Derives) ts) := by
  have ofStatement {ts : List Token} (h : (statement endLine n ts).Gives (TakesStatement ts)) :
      (statement endLine n ts).Gives
        (Takes (fun s => (Sentence.declaration s.unnumbered).Derives) ts) := by
    refine h.imp ?_
    rintro s next rest ⟨used, dangling, rfl, h, -⟩
    exact ⟨used, rfl, .statement h⟩
  cases ts with
  | nil =>
    rw [declaration]
    exact ofStatement (statement_derives n [])
  | cons t rest =>
    rw [declaration]
    split
    case isTrue isClass =>
      refine (classHeading_derives n rest).andThen ?_
      rintro ⟨name, superclass⟩ n₁ rest₁ hl
        ⟨used, hs, heritage, left, rfl, isName, hh, isOpen⟩
      refine (members_derives n₁ rest₁).map ?_
      rintro ⟨methods, statics⟩ n₂ rest₂ ⟨used', rfl, body, right, rfl, hb, isClose⟩
      refine ⟨t :: name :: (heritage ++ left :: (body ++ [right])), by simp [hs], ?_⟩
      simpa [Stmt.unnumbered] using
        Sentence.Derives.classDecl isClass isName hh isOpen hb isClose
    case isFalse =>
      split
      case isTrue isFunction =>
        refine (routine_derives .function n rest).map ?_
        rintro d n₁ rest₁ ⟨used, rfl, h⟩
        refine ⟨t :: used, rfl, ?_⟩
        simpa [Stmt.unnumbered] using Sentence.Derives.funDecl isFunction h
      case isFalse =>
        split
        case isTrue isLet =>
          refine ((letDeclaration_derives isLet n rest).within _).imp ?_
          rintro s n₁ rest₁ ⟨used, hs, h⟩
          exact ⟨used, hs, .letDecl h⟩
        case isFalse =>
          split
          case isTrue isConst => exact (constDeclaration_derives isConst n rest).within _
          case isFalse => exact ofStatement (statement_derives n (t :: rest))
termination_by ts.length * 4 + 1
decreasing_by all_goals (simp only [List.length_cons, List.length_nil]; omega)

theorem statement_derives (n : Nat) (ts : List Token) :
    (statement endLine n ts).Gives (TakesStatement ts) := by
  have ofExpression {ts : List Token} :
      (expressionStatement endLine n ts).Gives (TakesStatement ts) := by
    refine (expressionStatement_derives n ts).imp ?_
    rintro s next rest ⟨used, rfl, h⟩
    exact ⟨used, false, rfl, .exprStmt h, by simp⟩
  cases ts with
  | nil =>
    rw [statement]
    exact ofExpression
  | cons t rest =>
    rw [statement]
    split
    case isTrue isFor =>
      refine (forClauses_derives n rest).andThen ?_
      rintro ⟨initializer, condition, step⟩ n₁ rest₁ hl ⟨cs, hs, clauses⟩
      refine (statement_derives n₁ rest₁).map ?_
      rintro body n₂ rest₂ ⟨used, dangling, rfl, h, hd⟩
      refine ⟨t :: (cs ++ used), dangling, by simp [hs], ?_, hd⟩
      rw [forLoop_unnumbered]
      exact .forStmt isFor clauses h
    case isFalse =>
      split
      case isTrue isIf =>
        refine (condition_derives _ n rest).andThen ?_
        rintro e n₁ rest₁ hl ⟨cs, hs, he⟩
        refine (statement_derives n₁ rest₁).andThen ?_
        rintro thenBranch n₂ rest₂ hl₂ ⟨used, dangling, hs₂, h, hd⟩
        refine (elseClause_derives n₂ rest₂).map ?_
        rintro elseBranch n₃ rest₃ helse
        cases elseBranch with
        | none =>
          obtain ⟨rfl, hno⟩ := helse
          refine ⟨t :: (cs ++ used), true, by simp [hs, hs₂], ?_, fun _ => hno⟩
          simpa [Stmt.unnumbered, Stmt.unnumberedOption] using Sentence.Derives.ifStmt isIf he h
        | some s =>
          obtain ⟨separator, more, rfl, isElse, used', dangling', rfl, h', hd'⟩ := helse
          -- The `else` that was taken would have stood behind a dangling branch.
          cases dangling with
          | true => exact absurd isElse (hd rfl separator rfl)
          | false =>
            refine ⟨t :: (cs ++ (used ++ separator :: used')), dangling', by simp [hs, hs₂],
              ?_, hd'⟩
            simpa [Stmt.unnumbered, Stmt.unnumberedOption] using
              Sentence.Derives.ifElse isIf he h isElse h'
      case isFalse =>
        split
        case isTrue isWhile =>
          refine (condition_derives _ n rest).andThen ?_
          rintro e n₁ rest₁ hl ⟨cs, hs, he⟩
          refine (statement_derives n₁ rest₁).map ?_
          rintro body n₂ rest₂ ⟨used, dangling, rfl, h, hd⟩
          refine ⟨t :: (cs ++ used), dangling, by simp [hs], ?_, hd⟩
          simpa [Stmt.unnumbered] using Sentence.Derives.whileStmt isWhile he h
        case isFalse =>
          split
          case isTrue isReturn => exact (returnStatement_derives isReturn n rest).within _
          case isFalse =>
            split
            case isTrue isOpen =>
              refine (block_derives n rest).map ?_
              rintro ss n₁ rest₁ ⟨used, rfl, body, right, rfl, hb, isClose⟩
              refine ⟨t :: (body ++ [right]), false, by simp, ?_, by simp⟩
              simpa [Stmt.unnumbered] using Sentence.Derives.block isOpen hb isClose
            case isFalse =>
              split
              case isTrue isPrint => exact (printStatement_derives isPrint n rest).within _
              case isFalse => exact ofExpression
termination_by ts.length * 4
decreasing_by all_goals (simp only [List.length_cons] at *; omega)

theorem elseClause_derives (n : Nat) (ts : List Token) :
    (elseClause endLine n ts).Gives fun elseBranch next rest =>
      match elseBranch with
      | none => ts = rest ∧ NoElse rest
      | some s => ∃ separator more, ts = separator :: more ∧ separator.is .elseWord ∧
          TakesStatement more s next rest := by
  cases ts with
  | nil =>
    rw [elseClause]
    exact ⟨rfl, by simp [NoElse]⟩
  | cons t rest =>
    rw [elseClause]
    split
    case isTrue isElse =>
      refine (statement_derives n rest).map ?_
      rintro s next rest' h
      exact ⟨t, rest, rfl, isElse, h⟩
    case isFalse isOther => exact ⟨rfl, by simpa [NoElse] using isOther⟩
termination_by ts.length * 4
decreasing_by all_goals (simp only [List.length_cons]; omega)

theorem block_derives (n : Nat) (ts : List Token) :
    (block endLine n ts).Gives (Takes EndsBlock ts) := by
  cases ts with
  | nil =>
    rw [block]
    trivial
  | cons t rest =>
    rw [block]
    split
    case isTrue isClose => exact ⟨[t], rfl, [], t, rfl, .noDeclarations, isClose⟩
    case isFalse =>
      refine (declaration_derives n (t :: rest)).recover.andThen ?_
      rintro s n₁ rest₁ hl ⟨used, hs, h⟩
      refine (block_derives n₁ rest₁).map ?_
      rintro ss n₂ rest₂ ⟨used', rfl, body, right, rfl, hb, isClose⟩
      refine ⟨used ++ (body ++ [right]), by simp [hs], used ++ body, right, by simp, ?_, isClose⟩
      simpa [Stmt.unnumberedAll] using Sentence.Derives.declarations h hb
termination_by ts.length * 4 + 2
decreasing_by all_goals (simp only [List.length_cons] at *; omega)

theorem members_derives (n : Nat) (ts : List Token) :
    (members endLine n ts).Gives (Takes EndsClass ts) := by
  cases ts with
  | nil =>
    rw [members]
    trivial
  | cons t rest =>
    rw [members]
    split
    case isTrue isClose => exact ⟨[t], rfl, [], t, rfl, .noMembers, isClose⟩
    case isFalse =>
      split
      case isTrue isStatic =>
        refine (routine_derives .staticMethod n rest).andThen ?_
        rintro d n₁ rest₁ hl ⟨used, hs, h⟩
        refine (members_derives n₁ rest₁).map ?_
        rintro ⟨methods, statics⟩ n₂ rest₂ ⟨used', rfl, body, right, rfl, hb, isClose⟩
        refine ⟨t :: (used ++ (body ++ [right])), by simp [hs], t :: (used ++ body), right,
          by simp, ?_, isClose⟩
        simpa [FunctionDecl.unnumberedAll] using Sentence.Derives.staticMethod isStatic h hb
      case isFalse =>
        refine (routine_derives .method n (t :: rest)).andThen ?_
        rintro d n₁ rest₁ hl ⟨used, hs, h⟩
        refine (members_derives n₁ rest₁).map ?_
        rintro ⟨methods, statics⟩ n₂ rest₂ ⟨used', rfl, body, right, rfl, hb, isClose⟩
        refine ⟨used ++ (body ++ [right]), by simp [hs], used ++ body, right, by simp, ?_, isClose⟩
        simpa [FunctionDecl.unnumberedAll] using Sentence.Derives.method h hb
termination_by ts.length * 4 + 1
decreasing_by all_goals (simp only [List.length_cons] at *; omega)

theorem routine_derives (kind : Routine) (n : Nat) (ts : List Token) :
    (routine endLine kind n ts).Gives
      (Takes (fun d => (Sentence.function d.unnumbered).Derives) ts) := by
  rw [routine]
  refine (routineHeading_derives kind n ts).andThen ?_
  rintro ⟨name, params⟩ n₁ rest₁ hl
    ⟨used, hs, left, ps, right, leftBrace, rfl, isName, isOpen, hp, few, isClose, isOpenBrace⟩
  refine (block_derives n₁ rest₁).map ?_
  rintro ss n₂ rest₂ ⟨used', rfl, body, rightBrace, rfl, hb, isCloseBrace⟩
  refine ⟨name :: left :: (ps ++ right :: leftBrace :: (body ++ [rightBrace])), by simp [hs], ?_⟩
  simpa [FunctionDecl.unnumbered] using
    Sentence.Derives.function isName isOpen hp few isClose isOpenBrace hb isCloseBrace
termination_by ts.length * 4
decreasing_by all_goals omega

end

theorem read_derives (n : Nat) (ts : List Token) (h : (Listing.read endLine n ts).errors = []) :
    (Sentence.declarations (Stmt.unnumberedAll (Listing.read endLine n ts).statements)).Derives
      ts := by
  cases ts with
  | nil =>
    rw [Listing.read]
    exact .noDeclarations
  | cons t rest =>
    have first := @declaration_derives endLine n (t :: rest)
    rw [Listing.read] at h ⊢
    cases hd : declaration endLine n (t :: rest) with
    | failed error more hl => simp [hd] at h
    | done s n₁ more hl =>
      rw [hd] at first h
      obtain ⟨used, hs, hfirst⟩ := first
      have all := Sentence.Derives.declarations hfirst (read_derives n₁ more h)
      rwa [← hs] at all
termination_by ts.length

end Statements

end ClassScript.Grammar
