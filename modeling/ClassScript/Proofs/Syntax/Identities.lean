import ClassScript.Proofs.Syntax.Ends
import ClassScript.Proofs.Syntax.Proper
import ClassScript.Proofs.Scoping.Enclosures

/-! The identities that the parser gives out. Those of a program are distinct, and those of each
expression in it increase in the order in which its nodes are completed. -/
namespace ClassScript

/-- Every expression in the statement has the property. -/
inductive Stmt.Every (P : Expr → Prop) : Stmt → Prop
  | intro {s : Stmt} (own : ∀ e ∈ s.expressions, P e) (branches : ∀ b ∈ s.branches, b.Every P)
    (bodies : ∀ frame ∈ s.frames, ∀ b ∈ frame.body, b.Every P) : s.Every P

namespace Stmt.Every

variable {P : Expr → Prop}

theorem simple {s : Stmt} (own : ∀ e ∈ s.expressions, P e) (hb : s.branches = [])
    (hf : s.frames = []) : s.Every P := .intro own (by simp [hb]) (by simp [hf])

theorem block {body : List Stmt} (h : ∀ b ∈ body, b.Every P) : (Stmt.block body).Every P :=
  .intro (by simp [expressions]) (by simp [branches])
    (by simpa [frames, Scoping.Frame.body] using h)

theorem loop {condition : Expr} {body : Stmt} (hc : P condition) (hb : body.Every P) :
    (Stmt.loop condition body).Every P :=
  .intro (by simpa [expressions] using hc) (by simpa [branches] using hb) (by simp [frames])

theorem cond {condition : Expr} {thenBranch : Stmt} {elseBranch : Option Stmt} (hc : P condition)
    (ht : thenBranch.Every P) (he : ∀ b ∈ elseBranch, b.Every P) :
    (Stmt.cond condition thenBranch elseBranch).Every P :=
  .intro (by simpa [expressions] using hc) (by simpa [branches, ht] using he) (by simp [frames])

theorem function {d : FunctionDecl} (h : ∀ b ∈ d.body, b.Every P) : (Stmt.function d).Every P :=
  .intro (by simp [expressions]) (by simp [branches])
    (by simpa [frames, Scoping.Frame.body] using h)

theorem classDecl {name : Token} {superclass : Option Expr} {methods statics : List FunctionDecl}
    (hs : ∀ e ∈ superclass, P e) (hmethods : ∀ d ∈ methods, ∀ b ∈ d.body, b.Every P)
    (hstatics : ∀ d ∈ statics, ∀ b ∈ d.body, b.Every P) :
    (Stmt.classDecl name superclass methods statics).Every P := by
  refine .intro (by simpa [expressions] using hs) (by simp [branches]) ?_
  intro frame hf
  rcases List.mem_append.mp hf with hf | hf
  · obtain ⟨d, hd, rfl⟩ := List.mem_map.mp hf
    exact hmethods d hd
  · obtain ⟨d, hd, rfl⟩ := List.mem_map.mp hf
    exact hstatics d hd

theorem forLoop {initializer : Option Stmt} {condition step : Option Expr} {body : Stmt}
    (always : P (.literal (.bool true))) (hi : ∀ s ∈ initializer, s.Every P)
    (hc : ∀ e ∈ condition, P e) (hs : ∀ e ∈ step, P e) (hb : body.Every P) :
    (Stmt.forLoop initializer condition step body).Every P := by
  have hcondition : P (condition.getD (.literal (.bool true))) := by
    cases condition with
    | none => exact always
    | some e => exact hc e rfl
  have pair : ∀ {a b : Stmt}, a.Every P → b.Every P → (Stmt.block [a, b]).Every P :=
    fun ha hb => .block (by simp [ha, hb])
  have last : ∀ e ∈ step, (Stmt.expr e).Every P :=
    fun e he => .simple (by simpa [expressions] using hs e he) rfl rfl
  cases step with
  | none =>
    cases initializer with
    | none => exact .loop hcondition hb
    | some s => exact pair (hi s rfl) (.loop hcondition hb)
  | some e =>
    have hbody := pair hb (last e rfl)
    cases initializer with
    | none => exact .loop hcondition hbody
    | some s => exact pair (hi s rfl) (.loop hcondition hbody)

end Stmt.Every

namespace Scoping.Stands

/-- What holds of every expression of a program's statements, and with an expression of its
operands, holds of every expression that stands in the program. -/
theorem expr_of_every {P : Expr → Prop} {program : List Stmt} (h : ∀ s ∈ program, s.Every P)
    (down : ∀ e, P e → ∀ e' ∈ e.operands, P e') {e : Expr} {around : List Enclosure}
    (hs : Stands program (.expr e) around) : P e := by
  have parts : ∀ {part around}, Stands program part around →
      match part with
      | .stmt s => s.Every P
      | .expr e => P e
      | _ => True := by
    intro part around hs
    induction hs with
    | topLevel hm => exact h _ hm
    | inside _ hf hb ih =>
      cases ih with
      | intro _ _ bodies => exact bodies _ hf _ (by simp [hb])
    | branch _ hb ih =>
      cases ih with
      | intro _ branches _ => exact branches _ hb
    | expression _ he ih =>
      cases ih with
      | intro own _ _ => exact own _ he
    | operand _ he ih => exact down _ ih _ he
  exact parts hs

end Scoping.Stands

theorem Reading.gives_some {α : Type} {n : Nat} (r : Reading α n) : r.Gives fun _ _ _ => True := by
  cases r <;> trivial

open Reading

/-- The property holds of every expression that is read, and of those that no tokens stand for. -/
structure Kept (endLine : Nat) (P : Expr → Prop) : Prop where
  read : ∀ n ts, (expression endLine n ts).Gives fun e _ _ => P e
  always : P (.literal (.bool true))
  named : ∀ id name, P (.var id name)

section Statements

variable {endLine : Nat} {P : Expr → Prop}

theorem optionalExpression_every (kept : Kept endLine P) (stop : Symbol) (n : Nat)
    (ts : List Token) : (optionalExpression endLine stop n ts).Gives fun v _ _ => ∀ e ∈ v, P e := by
  have read : ∀ ts, (expression endLine n ts).Gives fun e _ _ => ∀ e' ∈ some e, P e' :=
    fun ts => (kept.read n ts).imp fun e _ _ h => by simpa using h
  unfold optionalExpression
  split
  · split
    · exact fun e he => absurd he (Option.not_mem_none e)
    · exact (read _).map fun _ _ _ h => h
  · exact (read []).map fun _ _ _ h => h

theorem letInitializer_every (kept : Kept endLine P) (n : Nat) (ts : List Token) :
    (letInitializer endLine n ts).Gives fun v _ _ => ∀ e ∈ v, P e := by
  unfold letInitializer
  split
  · split
    · exact (kept.read n _).map fun e _ _ h => by simpa using h
    · exact fun e he => absurd he (Option.not_mem_none e)
  · exact fun e he => absurd he (Option.not_mem_none e)

theorem letDeclaration_every (kept : Kept endLine P) (n : Nat) (ts : List Token) :
    (letDeclaration endLine n ts).Gives fun s _ _ => s.Every P := by
  unfold letDeclaration
  refine (gives_some _).andThen ?_
  intro name n₁ rest₁ _ _
  refine (letInitializer_every kept n₁ rest₁).andThen ?_
  intro initializer n₂ rest₂ _ h
  refine (gives_some _).map fun _ _ _ _ => ?_
  exact .simple (by simpa [Stmt.expressions] using h) rfl rfl

theorem constDeclaration_every (kept : Kept endLine P) (n : Nat) (ts : List Token) :
    (constDeclaration endLine n ts).Gives fun s _ _ => s.Every P := by
  unfold constDeclaration
  refine (gives_some _).andThen ?_
  intro name n₁ rest₁ _ _
  refine (gives_some _).andThen ?_
  intro equals n₂ rest₂ _ _
  refine (kept.read n₂ rest₂).andThen ?_
  intro value n₃ rest₃ _ h
  refine (gives_some _).map fun _ _ _ _ => ?_
  exact .simple (by simpa [Stmt.expressions] using h) rfl rfl

theorem expressionStatement_every (kept : Kept endLine P) (n : Nat) (ts : List Token) :
    (expressionStatement endLine n ts).Gives fun s _ _ => s.Every P := by
  unfold expressionStatement
  refine (kept.read n ts).andThen ?_
  intro e n₁ rest₁ _ h
  refine (gives_some _).map fun _ _ _ _ => ?_
  exact .simple (by simpa [Stmt.expressions] using h) rfl rfl

theorem printStatement_every (kept : Kept endLine P) (n : Nat) (ts : List Token) :
    (printStatement endLine n ts).Gives fun s _ _ => s.Every P := by
  unfold printStatement
  refine (kept.read n ts).andThen ?_
  intro e n₁ rest₁ _ h
  refine (gives_some _).map fun _ _ _ _ => ?_
  exact .simple (by simpa [Stmt.expressions] using h) rfl rfl

theorem returnStatement_every (kept : Kept endLine P) (keyword : Token) (n : Nat)
    (ts : List Token) : (returnStatement endLine keyword n ts).Gives fun s _ _ => s.Every P := by
  unfold returnStatement
  refine (optionalExpression_every kept _ n ts).andThen ?_
  intro value n₁ rest₁ _ h
  refine (gives_some _).map fun _ _ _ _ => ?_
  exact .simple (by simpa [Stmt.expressions] using h) rfl rfl

theorem forInitializer_every (kept : Kept endLine P) (n : Nat) (ts : List Token) :
    (forInitializer endLine n ts).Gives fun v _ _ => ∀ s ∈ v, s.Every P := by
  have one : ∀ {s : Stmt}, s.Every P → ∀ s' ∈ some s, s'.Every P := by simp
  unfold forInitializer
  split
  · split
    · exact fun e he => absurd he (Option.not_mem_none e)
    · split
      · exact (letDeclaration_every kept n _).map fun _ _ _ => one
      · exact (expressionStatement_every kept n _).map fun _ _ _ => one
  · exact (expressionStatement_every kept n []).map fun _ _ _ => one

theorem forClauses_every (kept : Kept endLine P) (n : Nat) (ts : List Token) :
    (forClauses endLine n ts).Gives fun v _ _ =>
      (∀ s ∈ v.1, s.Every P) ∧ (∀ e ∈ v.2.1, P e) ∧ ∀ e ∈ v.2.2, P e := by
  unfold forClauses
  refine (gives_some _).andThen ?_
  intro left n₁ rest₁ _ _
  refine (forInitializer_every kept n₁ rest₁).andThen ?_
  intro initializer n₂ rest₂ _ hi
  refine (optionalExpression_every kept _ n₂ rest₂).andThen ?_
  intro condition n₃ rest₃ _ hc
  refine (gives_some _).andThen ?_
  intro semicolon n₄ rest₄ _ _
  refine (optionalExpression_every kept _ n₄ rest₄).andThen ?_
  intro step n₅ rest₅ _ hs
  exact (gives_some _).map fun _ _ _ _ => ⟨hi, hc, hs⟩

theorem condition_every (kept : Kept endLine P) (missing : SyntaxFault) (n : Nat)
    (ts : List Token) : (condition endLine missing n ts).Gives fun e _ _ => P e := by
  unfold condition
  refine (gives_some _).andThen ?_
  intro left n₁ rest₁ _ _
  refine (kept.read n₁ rest₁).andThen ?_
  intro e n₂ rest₂ _ h
  exact (gives_some _).map fun _ _ _ _ => h

theorem superclassClause_every (kept : Kept endLine P) (n : Nat) (ts : List Token) :
    (superclassClause endLine n ts).Gives fun v _ _ => ∀ e ∈ v, P e := by
  unfold superclassClause
  split
  · split
    · refine (gives_some _).andThen ?_
      rintro name n₁ rest₁ _ _ e he
      cases he
      exact kept.named n₁ name
    · exact fun e he => absurd he (Option.not_mem_none e)
  · exact fun e he => absurd he (Option.not_mem_none e)

theorem classHeading_every (kept : Kept endLine P) (n : Nat) (ts : List Token) :
    (classHeading endLine n ts).Gives fun v _ _ => ∀ e ∈ v.2, P e := by
  unfold classHeading
  refine (gives_some _).andThen ?_
  intro name n₁ rest₁ _ _
  refine (superclassClause_every kept n₁ rest₁).andThen ?_
  intro superclass n₂ rest₂ _ h
  exact (gives_some _).map fun _ _ _ _ => h

mutual

theorem declaration_every (kept : Kept endLine P) (n : Nat) (ts : List Token) :
    (declaration endLine n ts).Gives fun s _ _ => s.Every P := by
  cases ts with
  | nil =>
    rw [declaration]
    exact statement_every kept n []
  | cons t rest =>
    rw [declaration]
    split
    · refine (classHeading_every kept n rest).andThen ?_
      rintro ⟨name, superclass⟩ n₁ rest₁ hl hs
      refine (members_every kept n₁ rest₁).map ?_
      rintro ⟨methods, statics⟩ _ _ ⟨hmethods, hstatics⟩
      exact .classDecl hs hmethods hstatics
    · split
      · exact (routine_every kept .function n rest).map fun _ _ _ => .function
      · split
        · exact (letDeclaration_every kept n rest).within _
        · split
          · exact (constDeclaration_every kept n rest).within _
          · exact statement_every kept n (t :: rest)
termination_by ts.length * 4 + 1
decreasing_by all_goals (try simp only [List.length_cons]); omega

theorem statement_every (kept : Kept endLine P) (n : Nat) (ts : List Token) :
    (statement endLine n ts).Gives fun s _ _ => s.Every P := by
  cases ts with
  | nil =>
    rw [statement]
    exact expressionStatement_every kept n []
  | cons t rest =>
    rw [statement]
    split
    · refine (forClauses_every kept n rest).andThen ?_
      rintro ⟨initializer, condition, step⟩ n₁ rest₁ hl ⟨hi, hc, hs⟩
      exact (statement_every kept n₁ rest₁).map fun _ _ _ => .forLoop kept.always hi hc hs
    · split
      · refine (condition_every kept _ n rest).andThen ?_
        intro condition n₁ rest₁ hl hc
        refine (statement_every kept n₁ rest₁).andThen ?_
        intro thenBranch n₂ rest₂ hl₂ ht
        exact (elseClause_every kept n₂ rest₂).map fun _ _ _ => .cond hc ht
      · split
        · refine (condition_every kept _ n rest).andThen ?_
          intro condition n₁ rest₁ hl hc
          exact (statement_every kept n₁ rest₁).map fun _ _ _ => .loop hc
        · split
          · exact (returnStatement_every kept t n rest).within _
          · split
            · exact (block_every kept n rest).map fun _ _ _ => .block
            · split
              · exact (printStatement_every kept n rest).within _
              · exact expressionStatement_every kept n (t :: rest)
termination_by ts.length * 4
decreasing_by all_goals (try simp only [List.length_cons]); omega

theorem elseClause_every (kept : Kept endLine P) (n : Nat) (ts : List Token) :
    (elseClause endLine n ts).Gives fun v _ _ => ∀ s ∈ v, s.Every P := by
  cases ts with
  | nil =>
    rw [elseClause]
    exact fun e he => absurd he (Option.not_mem_none e)
  | cons t rest =>
    rw [elseClause]
    split
    · exact (statement_every kept n rest).map fun _ _ _ h => by simpa using h
    · exact fun e he => absurd he (Option.not_mem_none e)
termination_by ts.length * 4
decreasing_by simp only [List.length_cons]; omega

theorem block_every (kept : Kept endLine P) (n : Nat) (ts : List Token) :
    (block endLine n ts).Gives fun body _ _ => ∀ s ∈ body, s.Every P := by
  cases ts with
  | nil =>
    rw [block]
    trivial
  | cons t rest =>
    rw [block]
    split
    · exact List.forall_mem_nil _
    · refine (declaration_every kept n (t :: rest)).recover.andThen ?_
      intro first n₁ rest₁ hl hf
      exact (block_every kept n₁ rest₁).map fun _ _ _ h => List.forall_mem_cons.mpr ⟨hf, h⟩
termination_by ts.length * 4 + 2
decreasing_by all_goals (simp only [List.length_cons] at *; omega)

theorem members_every (kept : Kept endLine P) (n : Nat) (ts : List Token) :
    (members endLine n ts).Gives fun v _ _ => (∀ d ∈ v.1, ∀ s ∈ d.body, s.Every P) ∧
      ∀ d ∈ v.2, ∀ s ∈ d.body, s.Every P := by
  cases ts with
  | nil =>
    rw [members]
    trivial
  | cons t rest =>
    rw [members]
    split
    · exact ⟨List.forall_mem_nil _, List.forall_mem_nil _⟩
    · split
      · refine (routine_every kept .staticMethod n rest).andThen ?_
        intro first n₁ rest₁ hl hf
        exact (members_every kept n₁ rest₁).map fun _ _ _ ⟨hmethods, hstatics⟩ =>
          ⟨hmethods, List.forall_mem_cons.mpr ⟨hf, hstatics⟩⟩
      · refine (routine_every kept .method n (t :: rest)).andThen ?_
        intro first n₁ rest₁ hl hf
        exact (members_every kept n₁ rest₁).map fun _ _ _ ⟨hmethods, hstatics⟩ =>
          ⟨List.forall_mem_cons.mpr ⟨hf, hmethods⟩, hstatics⟩
termination_by ts.length * 4 + 1
decreasing_by all_goals (simp only [List.length_cons] at *; omega)

theorem routine_every (kept : Kept endLine P) (kind : Routine) (n : Nat) (ts : List Token) :
    (routine endLine kind n ts).Gives fun d _ _ => ∀ s ∈ d.body, s.Every P := by
  rw [routine]
  refine (gives_some _).andThen ?_
  rintro ⟨name, parameters⟩ n₁ rest₁ hl _
  exact (block_every kept n₁ rest₁).map fun _ _ _ h => h
termination_by ts.length * 4
decreasing_by omega

end

/-- The property holds of every expression of the statements that are read. -/
theorem read_every (kept : Kept endLine P) (n : Nat) (ts : List Token) :
    ∀ s ∈ (Listing.read endLine n ts).statements, s.Every P := by
  by_cases hts : ts = []
  · subst hts
    rw [Listing.read]
    exact List.forall_mem_nil _
  have first := declaration_every kept n ts
  cases hd : declaration endLine n ts with
  | done s next more hl =>
    rw [hd] at first
    rw [Listing.read_done hd]
    exact List.forall_mem_cons.mpr ⟨first, read_every kept next more⟩
  | failed error more hl =>
    have shorter := Listing.synchronize_shorter hts hl
    rw [Listing.read_failed hts hd]
    exact read_every kept n (synchronize more)
termination_by ts.length

end Statements

/-- The identities in the expression increase in the order in which its nodes are completed. -/
def Expr.Increasing (e : Expr) : Prop := (identities e.references).Pairwise (· < ·)

theorem increasing_kept (endLine : Nat) : Kept endLine Expr.Increasing where
  read n ts := (expression_reads n ts).imp fun _ _ _ h => h.2.sorted
  always := by simp [Expr.Increasing, Expr.references]
  named id name := by simp [Expr.Increasing, Expr.references, identities]

theorem Expr.Increasing.operand {e : Expr} (h : e.Increasing) :
    ∀ e' ∈ e.operands, e'.Increasing := by
  intro e' he
  refine h.sublist (List.Sublist.map _ ?_)
  rw [Expr.references_eq e]
  exact (List.sublist_flatten_of_mem (List.mem_map_of_mem he)).trans (List.sublist_append_left _ _)

namespace Parser

/-- Where tokens say a program or an expression, the parser reads it, and its references have
identities of their own, all of them before the one that the parser would give out next. In each
expression they increase in the order in which nodes are completed. -/
theorem identities_own (ts : List Token) :
    (∀ program, Stmt.ofTokens ts = .ok program →
      ∃ after, parse.run (new ts) = some (.ok program, after) ∧
        (identities (Stmt.referencesAll program)).Nodup ∧
        (∀ id ∈ identities (Stmt.referencesAll program), id < after.nextId) ∧
        ∀ e around, Scoping.Stands program (.expr e) around → e.Increasing) ∧
      ∀ e, Expr.ofTokens ts = .ok e →
        ∃ after, parseExpression.run.run (new ts) = some (.ok e, after) ∧
          (identities e.references).Nodup ∧
          (∀ id ∈ identities e.references, id < after.nextId) ∧ e.Increasing := by
  constructor
  · intro program hok
    obtain ⟨after, run, hnext⟩ := parse_runs ts
    obtain ⟨noErrors, rfl⟩ := ofTokens_eq_ok_iff.mp hok
    obtain ⟨numbered, -⟩ := read_builds 0 (beforeEnd ts) noErrors
    refine ⟨after, hok ▸ run, numbered.distinct, ?_, ?_⟩
    · intro id hid
      rw [hnext _ hok]
      exact (numbered.bounds id hid).2
    · intro e around hs
      exact hs.expr_of_every (read_every (increasing_kept (endLine ts)) 0 (beforeEnd ts))
        fun _ => Expr.Increasing.operand
  · intro e hok
    obtain ⟨after, run, read⟩ := parseExpression_runs ts
    obtain ⟨hl, hread⟩ := read e hok
    have reads : (ClassScript.expression (endLine ts) 0 (beforeEnd ts)).Gives
        (Reads (beforeEnd ts) 0) :=
      expression_reads 0 (beforeEnd ts)
    rw [hread] at reads
    have ascending := reads.2
    exact ⟨after, hok ▸ run, ascending.numbered.distinct, fun id hid => (ascending.bounds id hid).2,
      ascending.sorted⟩

namespace ChainedAssignment

def name (lexeme : String) : Token := ⟨.symbol .identifier, lexeme, 1⟩

def equal : Token := ⟨.symbol .equal, "=", 1⟩

/-- `o.p = x = y` -/
def assignment : List Token :=
  [name "o", ⟨.symbol .dot, ".", 1⟩, name "p", equal, name "x", equal, name "y"]

def statement : List Token := assignment ++ [⟨.symbol .semicolon, ";", 1⟩]

/-- The identity 1 is that of the target `x`, and no node keeps it. -/
def tree : Expr := .setProperty (.var 0 (name "o")) (name "p")
    (.assign 3 (name "x") (.var 2 (name "y")))

theorem chain_identities :
    Stmt.ofTokens statement = .ok [.expr tree] ∧ Expr.ofTokens assignment = .ok tree ∧
      (∃ after, parse.run (new statement) = some (.ok [.expr tree], after) ∧
        (identities (Stmt.referencesAll [.expr tree])).Nodup ∧
        (∀ id ∈ identities (Stmt.referencesAll [.expr tree]), id < after.nextId) ∧
        ∀ e around, Scoping.Stands [.expr tree] (.expr e) around → e.Increasing) ∧
      ∃ after, parseExpression.run.run (new assignment) = some (.ok tree, after) ∧
        (identities tree.references).Nodup ∧
        (∀ id ∈ identities tree.references, id < after.nextId) ∧ tree.Increasing := by
  have program : Stmt.ofTokens statement = .ok [.expr tree] := by with_unfolding_all rfl
  have expression : Expr.ofTokens assignment = .ok tree := by with_unfolding_all rfl
  exact ⟨program, expression, (identities_own statement).1 _ program,
    (identities_own assignment).2 _ expression⟩

end ChainedAssignment

end Parser

end ClassScript
