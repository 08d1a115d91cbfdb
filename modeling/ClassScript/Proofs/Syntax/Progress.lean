import ClassScript.Proofs.Syntax.Ends

/-! The loop over the declarations of a program, turn by turn. Every turn moves the parser on, on
tokens of any kind with or without an end of the source, so there are no more turns than tokens
before the end. -/
namespace ClassScript.Parser

/-- What a turn comes to: a statement, or an error where the declaration cannot be read. -/
abbrev Finding := Except SyntaxError Stmt

/-- One turn: the end is not yet reached, and a declaration is read or given up. -/
structure Turn (r : Rules) (p : Parser) (finding : Finding) (p' : Parser) : Prop where
  inside : atEnd.run p = some (false, p)
  runs : (declaration r).run.run p = some (finding, p')

/-- Some turns, one after the other. -/
inductive Turns (r : Rules) : Parser → List Finding → Parser → Prop
  | none (p : Parser) : Turns r p [] p
  | more {p p' p'' : Parser} {finding : Finding} {findings : List Finding}
      (turn : Turn r p finding p') (turns : Turns r p' findings p'') :
      Turns r p (finding :: findings) p''

variable {ts rest : List Token} {n : Nat} {r : Rules} {p p' p'' : Parser} {finding : Finding}
  {findings : List Finding}

def Finding.error? : Finding → Option SyntaxError
  | .ok _ => none
  | .error error => some error

def foundStatements (findings : List Finding) : List Stmt := findings.filterMap Except.toOption

def foundErrors (findings : List Finding) : List SyntaxError := findings.filterMap Finding.error?

section Findings

variable (s : Stmt) (error : SyntaxError) (findings : List Finding)

@[simp] theorem foundStatements_ok : foundStatements (.ok s :: findings) =
    s :: foundStatements findings := rfl

@[simp] theorem foundStatements_error :
    foundStatements (.error error :: findings) = foundStatements findings := rfl

@[simp] theorem foundErrors_ok : foundErrors (.ok s :: findings) = foundErrors findings := rfl

@[simp] theorem foundErrors_error :
    foundErrors (.error error :: findings) = error :: foundErrors findings := rfl

/-- Every turn gives one statement or one error. -/
theorem length_found :
    (foundStatements findings).length + (foundErrors findings).length = findings.length := by
  induction findings with
  | nil => rfl
  | cons finding findings ih => cases finding <;> simp <;> omega

end Findings

/-- A run of a turn has one outcome. -/
theorem Turn.unique (turn : Turn r p finding p') {finding' : Finding}
    (turn' : Turn r p finding' p'') : finding = finding' ∧ p' = p'' := by
  simpa using turn.runs.symm.trans turn'.runs

theorem Left.ne_nil {t : Token} (h : Left ts (t :: rest)) : ts ≠ [] := by
  rintro rfl
  exact absurd h.length_le (Nat.not_succ_le_zero _)

theorem position_standing (h : Left ts rest) :
    (standing ts rest n).position + rest.length = (beforeEnd ts).length :=
  Nat.sub_add_cancel (length_of_left h)

/-- Behind the tokens before the end the loop stops, also if there are no tokens at all. -/
theorem atEnd_behind (ts : List Token) (n : Nat) :
    atEnd.run (standing ts [] n) = some (true, standing ts [] n) := by
  by_cases hts : ts = []
  · subst hts
    rfl
  · exact atEnd_nil hts n

/-- In front of a token there is a turn, and it takes up that token at least: a declaration that is
read takes tokens, and after a failure the parser passes one. -/
theorem turn_shortens {t : Token} (h : Left ts (t :: rest)) (n : Nat) :
    ∃ finding rest' n',
      Turn (rules (depth ts)) (standing ts (t :: rest) n) finding (standing ts rest' n') ∧
        Left ts rest' ∧ rest'.length < (t :: rest).length := by
  have hts := h.ne_nil
  have deep : 4 * (t :: rest).length + 2 < depth ts := by
    have enough := depth_enough ts
    have inside := length_of_left h
    omega
  have tracks := declaration_recovers hts
    (unguarded_tracks hts (rules_tracking hts (depth ts)) n h.ready_cons deep)
  cases hd : ClassScript.declaration (endLine ts) n (t :: rest) with
  | done s next more shorter =>
    rw [hd] at tracks
    obtain ⟨left, run⟩ := tracks
    exact ⟨.ok s, more, next, ⟨atEnd_cons h, run⟩, left, shorter⟩
  | failed error more hl =>
    rw [hd] at tracks
    obtain ⟨left, next, run⟩ := tracks
    have shorter := Listing.synchronize_shorter (List.cons_ne_nil _ _) hl
    exact ⟨.error error, ClassScript.synchronize more, next, ⟨atEnd_cons h, run⟩, left, shorter⟩

/-- So does every turn, since there is no other from where it starts. -/
theorem Turn.shortens (h : Left ts rest)
    (turn : Turn (rules (depth ts)) (standing ts rest n) finding p') :
    ∃ rest' n', p' = standing ts rest' n' ∧ Left ts rest' ∧ rest'.length < rest.length := by
  cases rest with
  | nil => simpa using turn.inside.symm.trans (atEnd_behind ts n)
  | cons t rest =>
    obtain ⟨_, rest', n', expected, left, shorter⟩ := turn_shortens h n
    exact ⟨rest', n', (turn.unique expected).2, left, shorter⟩

/-- Where turns lead, some of the tokens before the end are left, and each turn has taken up one. -/
theorem Turns.standing (turns : Turns (rules (depth ts)) p findings p')
    (hp : p = standing ts rest n) (h : Left ts rest) :
    ∃ rest' n', p' = Parser.standing ts rest' n' ∧ Left ts rest' ∧
      findings.length + rest'.length ≤ rest.length := by
  induction turns generalizing rest n with
  | none p => exact ⟨rest, n, hp, h, by simp⟩
  | more turn turns ih =>
    subst hp
    obtain ⟨between, next, between_eq, left, shorter⟩ := turn.shortens h
    obtain ⟨rest', n', hp', left', count⟩ := ih between_eq left
    refine ⟨rest', n', hp', left', ?_⟩
    rw [List.length_cons]
    omega

/-- The loop is the turns up to the end: what it returns are their findings, behind those in
front. -/
theorem program_turns (h : Left ts rest) {budget : Nat} (enough : rest.length < budget) (n : Nat)
    (statements : List Stmt) (errors : List SyntaxError) :
    ∃ findings after, Turns (rules (depth ts)) (standing ts rest n) findings after ∧
      atEnd.run after = some (true, after) ∧
      (program (rules (depth ts)) budget statements errors).run (standing ts rest n) =
        some (verdict (statements ++ foundStatements findings) (errors ++ foundErrors findings),
          after) := by
  induction budget generalizing statements errors n rest with
  | zero => exact absurd enough (Nat.not_lt_zero _)
  | succ budget ih =>
    cases rest with
    | nil =>
      have ended := atEnd_behind ts n
      refine ⟨[], standing ts [] n, .none _, ended, ?_⟩
      simp [program, ended, verdict, foundStatements, foundErrors]
    | cons t rest =>
      obtain ⟨finding, rest', n', turn, left, shorter⟩ := turn_shortens h n
      have enough' : rest'.length < budget := by omega
      cases finding with
      | ok s =>
        obtain ⟨findings, after, turns, ended, later⟩ :=
          ih left enough' n' (statements ++ [s]) errors
        refine ⟨.ok s :: findings, after, .more turn turns, ended, ?_⟩
        rw [program]
        simp [turn.inside, turn.runs, later]
      | error error =>
        obtain ⟨findings, after, turns, ended, later⟩ :=
          ih left enough' n' statements (errors ++ [error])
        refine ⟨.error error :: findings, after, .more turn turns, ended, ?_⟩
        rw [program]
        simp [turn.inside, turn.runs, later]

/-- Reading the whole program has a result, so no index is out of range and no bound on the calls is
met. -/
theorem parse_turns (ts : List Token) :
    ∃ findings after, Turns (rules (depth ts)) (new ts) findings after ∧
      atEnd.run after = some (true, after) ∧
      parse.run (new ts) = some (verdict (foundStatements findings) (foundErrors findings),
        after) := by
  by_cases hts : ts = []
  · subst hts
    exact ⟨[], new [], .none _, rfl, rfl⟩
  · obtain ⟨findings, after, turns, ended, run⟩ :=
      program_turns (.new ts) (Nat.lt_succ_of_le (beforeEnd_length_le ts)) 0 [] []
    rw [← new_eq_standing] at turns run
    refine ⟨findings, after, turns, ended, ?_⟩
    rw [parse]
    simpa [hts, new] using run

/-- On any tokens, the loop of the parser has a next turn wherever it is not at the end, and every
turn takes the position on by one token at least and not beyond the tokens before the end. The turns
come to the end, and the statements and the errors they give are no more than these tokens. -/
theorem parse_progresses (ts : List Token) :
    (∀ front p, Turns (rules (depth ts)) (new ts) front p →
      (atEnd.run p = some (true, p) ∨ ∃ finding p', Turn (rules (depth ts)) p finding p') ∧
      ∀ finding p', Turn (rules (depth ts)) p finding p' →
        p.position < p'.position ∧ p'.position ≤ (beforeEnd ts).length) ∧
    (beforeEnd ts).length ≤ ts.length ∧
    ∃ findings after, Turns (rules (depth ts)) (new ts) findings after ∧
      atEnd.run after = some (true, after) ∧
      parse.run (new ts) = some (verdict (foundStatements findings) (foundErrors findings), after) ∧
      (foundStatements findings).length + (foundErrors findings).length ≤
      (beforeEnd ts).length := by
  refine ⟨fun front p turns => ?_, beforeEnd_length_le ts, ?_⟩
  · obtain ⟨rest, n, rfl, left, -⟩ := turns.standing (new_eq_standing ts) (.new ts)
    refine ⟨?_, fun finding p' turn => ?_⟩
    · cases rest with
      | nil => exact .inl (atEnd_behind ts n)
      | cons t rest =>
        obtain ⟨finding, rest', n', turn, -⟩ := turn_shortens left n
        exact .inr ⟨finding, _, turn⟩
    · obtain ⟨rest', n', rfl, left', shorter⟩ := turn.shortens left
      have before := position_standing (n := n) left
      have behind := position_standing (n := n') left'
      omega
  · obtain ⟨findings, after, turns, ended, run⟩ := parse_turns ts
    obtain ⟨rest, n, -, -, count⟩ := turns.standing (new_eq_standing ts) (.new ts)
    refine ⟨findings, after, turns, ended, run, ?_⟩
    rw [length_found]
    omega

/-- Two semicolons and no end of the source: each is an error of its own, so the bound is
reached. -/
example : (parse.run' (new [⟨.symbol .semicolon, ";", 1⟩, ⟨.symbol .semicolon, ";", 2⟩])) =
    some (.error [⟨.expression, 1⟩, ⟨.expression, 2⟩]) := by
  with_unfolding_all rfl

end ClassScript.Parser
