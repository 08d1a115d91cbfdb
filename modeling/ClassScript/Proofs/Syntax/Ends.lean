import ClassScript.Proofs.Syntax.Parsing

/-! Whole programs and whole expressions. The parser reads what the tokens before the first end of
the source say. Without such an end it reads them all, and what it still sees behind the last one
does not matter. -/
namespace ClassScript.Parser

variable {ts rest : List Token}

/-- The program, or the errors if there are any. -/
def verdict (statements : List Stmt) (errors : List SyntaxError) :
    Except (List SyntaxError) (List Stmt) :=
  if errors.isEmpty then .ok statements else .error errors

theorem verdict_of_ne_nil {errors : List SyntaxError} (h : errors ≠ []) (front behind : List Stmt) :
    verdict front errors = verdict behind errors := by
  cases errors with
  | nil => exact absurd rfl h
  | cons => rfl

theorem ofTokens_eq_verdict (ts : List Token) :
    Stmt.ofTokens ts = verdict (Listing.ofTokens ts).statements (Listing.ofTokens ts).errors := by
  unfold Stmt.ofTokens verdict
  cases h : (Listing.ofTokens ts).errors <;> simp [h]

theorem Ready.new (ts : List Token) : Ready ts (beforeEnd ts) :=
  ⟨.new ts, fun none last hlast => by simp [none] at hlast⟩

/-- The statements and the errors in front, and what the rest of the tokens adds to them. An error
changes the identities behind it, but no error depends on those. -/
theorem program_runs (hts : ts ≠ []) {r : Rules} {d : Nat} (tracking : Tracking ts r d)
    {turns : Nat} (statements : List Stmt) (errors : List SyntaxError) (n : Nat) (h : Left ts rest)
    (deep : 4 * rest.length + 2 < d) (enough : rest.length < turns) :
    ∃ after, (program r turns statements errors).run (standing ts rest n) =
        some (verdict (statements ++ (Listing.read (endLine ts) n rest).statements)
          (errors ++ (Listing.read (endLine ts) n rest).errors), after) ∧
      (errors ++ (Listing.read (endLine ts) n rest).errors = [] →
        after.nextId = (Listing.read (endLine ts) n rest).nextId) := by
  induction turns generalizing statements errors n rest with
  | zero => exact absurd enough (Nat.not_lt_zero _)
  | succ turns ih =>
    cases rest with
    | nil =>
      refine ⟨standing ts [] n, ?_, fun _ => by rw [Listing.read]; rfl⟩
      rw [program, Listing.read]
      simp [atEnd_nil hts, verdict]
    | cons t rest =>
      have tracks := declaration_recovers hts (unguarded_tracks hts tracking n h.ready_cons deep)
      cases hd : ClassScript.declaration (endLine ts) n (t :: rest) with
      | done s next more hl =>
        rw [hd] at tracks
        obtain ⟨hleft, run⟩ := tracks
        obtain ⟨after, later, hnext⟩ :=
          ih (statements ++ [s]) errors next hleft (by omega) (by omega)
        refine ⟨after, ?_⟩
        rw [Listing.read_done hd, program]
        simp only [List.append_assoc, List.singleton_append] at later
        refine ⟨?_, hnext⟩
        simp [atEnd_cons h, run, later]
      | failed error more hl =>
        rw [hd] at tracks
        obtain ⟨hleft, next, run⟩ := tracks
        have hne : t :: rest ≠ [] := List.cons_ne_nil _ _
        have shorter := Listing.synchronize_shorter hne hl
        obtain ⟨after, later, -⟩ :=
          ih statements (errors ++ [error]) next hleft (by omega) (by omega)
        rw [List.append_assoc, List.singleton_append, Listing.read_errors_zero,
          ← Listing.read_errors_zero n] at later
        rw [Listing.read_failed hne hd, program]
        refine ⟨after, ?_, by simp⟩
        rw [verdict_of_ne_nil (by simp) _
          (statements ++ (Listing.read (endLine ts) next
            (ClassScript.synchronize more)).statements)]
        simp [atEnd_cons h, run, later]

/-- The rules of the parser reach down to all tokens before the end. -/
theorem depth_enough (ts : List Token) : 4 * (beforeEnd ts).length + 2 < depth ts := by
  have inside := beforeEnd_length_le ts
  rw [depth]
  omega

/-- The parser reads the program that the tokens say, and has then given out as many identities. -/
theorem parse_runs (ts : List Token) :
    ∃ after, parse.run (new ts) = some (Stmt.ofTokens ts, after) ∧
      ∀ program, Stmt.ofTokens ts = .ok program → after.nextId = (Listing.ofTokens ts).nextId := by
  by_cases hts : ts = []
  · subst hts
    have nothing : Listing.ofTokens [] = ⟨[], [], 0⟩ := by
      simp [Listing.ofTokens, beforeEnd, Listing.read]
    refine ⟨new [], ?_, fun _ _ => by rw [nothing]; rfl⟩
    rw [ofTokens_eq_verdict, nothing]
    rfl
  · obtain ⟨after, run, hnext⟩ := program_runs hts (rules_tracking hts (depth ts)) [] [] 0 (.new ts)
      (depth_enough ts) (Nat.lt_succ_of_le (beforeEnd_length_le ts))
    refine ⟨after, ?_, fun program hok => hnext (ofTokens_eq_ok_iff.mp hok).1⟩
    rw [ofTokens_eq_verdict, Listing.ofTokens, new_eq_standing]
    simp [parse, hts, run]

/-- The same for an expression. -/
theorem parseExpression_runs (ts : List Token) :
    ∃ after, parseExpression.run.run (new ts) = some (Expr.ofTokens ts, after) ∧
      ∀ e, Expr.ofTokens ts = .ok e → ∃ hl,
        ClassScript.expression (endLine ts) 0 (beforeEnd ts) = .done e after.nextId [] hl := by
  by_cases hts : ts = []
  · subst hts
    have refused : Expr.ofTokens [] = .error ⟨.expression, 1⟩ := by
      simp [Expr.ofTokens, beforeEnd, expression_nil, endLine]
    exact ⟨new [], by rw [refused]; rfl, fun e hok => by rw [refused] at hok; cases hok⟩
  have tracks := (rules_tracking hts (depth ts)).expression 0 (beforeEnd ts) (.new ts)
    (Nat.lt_of_succ_lt (depth_enough ts))
  have start : parseExpression.run.run (new ts) =
      ((rules (depth ts)).expression >>= fun e => liftM atEnd >>= fun b => if b = true then pure e
        else liftM peek >>= fun t => throw ⟨.surplus, t.line⟩ : Rule Expr).run.run
          (standing ts (beforeEnd ts) 0) := by
    rw [new_eq_standing, parseExpression, run_bind_get, standing_tokens,
      if_neg (by simpa using hts)]
  cases hr : ClassScript.expression (endLine ts) 0 (beforeEnd ts) with
  | failed error rest hl =>
    rw [hr] at tracks
    obtain ⟨hleft, next, run⟩ := tracks
    have refused : Expr.ofTokens ts = .error error := by rw [Expr.ofTokens, hr]
    rw [refused, start]
    exact ⟨_, run_bind_error run, fun e hok => by cases hok⟩
  | done e next rest hl =>
    rw [hr] at tracks
    obtain ⟨hleft, run⟩ := tracks
    rw [start]
    cases rest with
    | nil =>
      have read : Expr.ofTokens ts = .ok e := by rw [Expr.ofTokens, hr]
      refine ⟨standing ts [] next, (run_bind_ok run).trans ?_, fun e' hok => ?_⟩
      · rw [read]
        exact (run_bind_step (atEnd_nil hts next)).trans rfl
      · cases read.symm.trans hok
        exact ⟨hl, rfl⟩
    | cons t rest =>
      have surplus : Expr.ofTokens ts = .error ⟨.surplus, t.line⟩ := by rw [Expr.ofTokens, hr]
      rw [surplus]
      refine ⟨standing ts (t :: rest) next, (run_bind_ok run).trans ?_, fun e hok => by cases hok⟩
      refine (run_bind_step (atEnd_cons hleft)).trans ?_
      exact (run_bind_step (peek_cons hleft)).trans rfl

/-- What the parser makes of tokens as a program and as an expression. -/
def results (ts : List Token) :
    Option (Except (List SyntaxError) (List Stmt)) × Option (Except SyntaxError Expr) :=
  (parse.run' (new ts), parseExpression.run.run' (new ts))

theorem results_eq (ts : List Token) :
    results ts = (some (Stmt.ofTokens ts), some (Expr.ofTokens ts)) := by
  obtain ⟨after, run, -⟩ := parse_runs ts
  obtain ⟨after', run', -⟩ := parseExpression_runs ts
  rw [StateT.run] at run run'
  simp [results, StateT.run', run, run']

/-- The expression that a reading gives if it leaves nothing. -/
def whole {n : Nat} : Reading Expr n → Except SyntaxError Expr
  | .done e _ [] _ => .ok e
  | .done _ _ (t :: _) _ => .error ⟨.surplus, t.line⟩
  | .failed error _ _ => .error error

theorem ofTokens_eq_whole (ts : List Token) :
    Expr.ofTokens ts = whole (ClassScript.expression (endLine ts) 0 (beforeEnd ts)) := by
  rw [Expr.ofTokens]
  split <;> simp [whole, *]

/-- Only the tokens before the end and the line of the end count. -/
theorem results_congr {us : List Token} (hb : beforeEnd ts = beforeEnd us)
    (hl : endLine ts = endLine us) : results ts = results us := by
  have listings : Listing.ofTokens ts = Listing.ofTokens us := by
    rw [Listing.ofTokens, Listing.ofTokens, hb, hl]
  rw [results_eq, results_eq, ofTokens_eq_verdict, ofTokens_eq_verdict, listings, ofTokens_eq_whole,
    ofTokens_eq_whole, hb, hl]

/-- A program and an expression are read alike with and without an end of the source on the last
line, and alike whatever stands behind that end. -/
theorem end_immaterial (hts : ts ≠ []) (noEnd : ∀ t ∈ ts, ¬ t.is .endOfSource) {eof : Token}
    (heof : eof.is .endOfSource) (behind : List Token) :
    (eof.line = (ts.getLast hts).line →
        results ts = (some (Stmt.ofTokens ts), some (Expr.ofTokens ts)) ∧
          results (ts ++ [eof]) = (some (Stmt.ofTokens ts), some (Expr.ofTokens ts))) ∧
      results (ts ++ [eof]) =
        (some (Stmt.ofTokens (ts ++ [eof])), some (Expr.ofTokens (ts ++ [eof]))) ∧
      results (ts ++ eof :: behind) =
        (some (Stmt.ofTokens (ts ++ [eof])), some (Expr.ofTokens (ts ++ [eof]))) := by
  have front := beforeEnd_cut noEnd heof
  have line := endLine_append noEnd heof
  refine ⟨?_, results_eq _, ?_⟩
  · intro hline
    have whole : beforeEnd ts = ts := List.takeWhile_eq_self_iff.mpr (by simpa using noEnd)
    have lastLine : endLine ts = eof.line := by
      rw [endLine, List.find?_eq_none.mpr noEnd, List.getLast?_eq_some_getLast hts, hline]
      rfl
    refine ⟨results_eq ts, ?_⟩
    rw [← results_eq]
    exact results_congr ((front []).trans whole.symm) ((line []).trans lastLine.symm)
  · rw [← results_eq]
    exact results_congr ((front behind).trans (front []).symm) ((line behind).trans (line []).symm)

namespace LastLiteral

/-- `f("x"`, where the literal is what the parser still sees at the end -/
def source : List Token :=
  [⟨.symbol .identifier, "f", 1⟩, ⟨.symbol .leftParen, "(", 1⟩, ⟨.string "x", "x", 2⟩]

def endOfSource : Token := ⟨.symbol .endOfSource, "", 2⟩

def outcome : Option (Except (List SyntaxError) (List Stmt)) × Option (Except SyntaxError Expr) :=
  (some (.error [⟨.argumentsClose, 2⟩]), some (.error ⟨.argumentsClose, 2⟩))

theorem literal_immaterial :
    source ≠ [] ∧ (∀ t ∈ source, ¬ t.is .endOfSource) ∧ endOfSource.is .endOfSource ∧
      endOfSource.line = (source.getLast nofun).line ∧ results source = outcome ∧
      results (source ++ [endOfSource]) = outcome ∧
      results (source ++ endOfSource :: source) = outcome := by
  have noEnd : ∀ t ∈ source, ¬ t.is .endOfSource := by decide
  have read : results source = outcome := by
    rw [results_eq]
    with_unfolding_all rfl
  have nonempty : source ≠ [] := nofun
  have isEnd : endOfSource.is .endOfSource := rfl
  obtain ⟨missing, ends, early⟩ := end_immaterial nonempty noEnd isEnd source
  obtain ⟨without, ended⟩ := missing rfl
  have hended : results (source ++ [endOfSource]) = outcome :=
    ended.trans (without.symm.trans read)
  exact ⟨nonempty, noEnd, isEnd, rfl, read, hended, early.trans (ends.symm.trans hended)⟩

end LastLiteral

end ClassScript.Parser
