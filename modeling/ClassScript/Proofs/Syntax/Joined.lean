import ClassScript.Proofs.Syntax.Followed

/-! Programs one behind the other. Their tokens together say the two programs, the identities of the
second given out behind those of the first. -/
namespace ClassScript

open Reading Grammar

theorem noElse_nil : NoElse [] := nofun

/-- The first end of the source is the one that counts. -/
theorem beforeEnd_cut {ts : List Token} {eof : Token} (hts : ∀ t ∈ ts, ¬ t.is .endOfSource)
    (heof : eof.is .endOfSource) (more : List Token) : beforeEnd (ts ++ eof :: more) = ts := by
  rw [beforeEnd, List.takeWhile_append_of_pos (by simpa using hts),
    List.takeWhile_cons_of_neg (by simp [heof]), List.append_nil]

theorem endLine_append {ts : List Token} {eof : Token} (hts : ∀ t ∈ ts, ¬ t.is .endOfSource)
    (heof : eof.is .endOfSource) (more : List Token) : endLine (ts ++ eof :: more) = eof.line := by
  have first : (ts ++ eof :: more).find? (·.is .endOfSource) = some eof := by
    rw [List.find?_append, List.find?_eq_none.mpr hts, Option.none_or]
    exact List.find?_cons_of_pos heof
  rw [endLine, first]

theorem ofTokens_eq_ok_iff {ts : List Token} {program : List Stmt} :
    Stmt.ofTokens ts = .ok program ↔
      (Listing.ofTokens ts).errors = [] ∧ (Listing.ofTokens ts).statements = program := by
  unfold Stmt.ofTokens
  cases h : (Listing.ofTokens ts).errors <;> simp [h]

namespace Listing

variable {endLine n : Nat} {ts us : List Token}

theorem read_done {s : Stmt} {next : Nat} {more : List Token} {hl : more.length < ts.length}
    (hd : declaration endLine n ts = .done s next more hl) :
    read endLine n ts = { read endLine next more with
      statements := s :: (read endLine next more).statements } := by
  cases ts with
  | nil => exact absurd hl (Nat.not_lt_zero _)
  | cons t rest =>
    rw [read]
    simp only [hd]

theorem read_failed {error : SyntaxError} {more : List Token} {hl : more.length ≤ ts.length}
    (hts : ts ≠ []) (hd : declaration endLine n ts = .failed error more hl) :
    read endLine n ts = { read endLine n (synchronize more) with
      errors := error :: (read endLine n (synchronize more)).errors } := by
  cases ts with
  | nil => exact absurd rfl hts
  | cons t rest =>
    rw [read]
    simp only [hd]

/-- Behind tokens that say a program the reading goes on with what follows them. -/
theorem read_followed (endLine' k : Nat) (noElse : NoElse us) (n : Nat) (ts : List Token)
    (h : (read endLine n ts).errors = []) :
    read endLine' (n + k) (ts ++ us) =
      { read endLine' ((read endLine n ts).nextId + k) us with
        statements := Stmt.raisedAll k (read endLine n ts).statements ++
          (read endLine' ((read endLine n ts).nextId + k) us).statements } := by
  by_cases hts : ts = []
  · subst hts
    simp [read, Stmt.raisedAll]
  · have follows : Follows endLine endLine' k us (Stmt.raised k) (declaration endLine n ts)
        (declaration endLine' (n + k) (ts ++ us)) := declaration_follows noElse n ts
    cases hd : declaration endLine n ts with
    | failed error more hl => simp [read_failed hts hd] at h
    | done s next more hl =>
      rw [read_done hd] at h
      rw [hd] at follows
      have alike := follows fun hr => absurd hr.1 Bool.false_ne_true
      cases hd' : declaration endLine' (n + k) (ts ++ us) with
      | failed => rw [hd'] at alike; exact alike.elim
      | done s' next' more' hl' =>
        rw [hd'] at alike
        obtain ⟨rfl, rfl, rfl⟩ := alike
        rw [read_done hd, read_done hd', read_followed endLine' k noElse next more h,
          Stmt.raisedAll, List.cons_append]
termination_by ts.length

end Listing

/-- Two programs, one behind the other, are read as one: the statements of the first, and then those
of the second with their identities raised by the number that the first took. -/
theorem ofTokens_joined {front behind : List Token} {eof₁ eof₂ eof : Token}
    {first second : List Stmt} (hfront : ∀ t ∈ front, ¬ t.is .endOfSource)
    (hbehind : ∀ t ∈ behind, ¬ t.is .endOfSource)
    (heof₁ : eof₁.is .endOfSource) (heof₂ : eof₂.is .endOfSource) (heof : eof.is .endOfSource)
    (hfirst : Stmt.ofTokens (front ++ [eof₁]) = .ok first)
    (hsecond : Stmt.ofTokens (behind ++ [eof₂]) = .ok second) :
    Stmt.ofTokens (front ++ behind ++ [eof]) =
      .ok (first ++ Stmt.raisedAll (Listing.ofTokens (front ++ [eof₁])).nextId second) := by
  obtain ⟨noErrors₁, rfl⟩ := ofTokens_eq_ok_iff.mp hfirst
  obtain ⟨noErrors₂, rfl⟩ := ofTokens_eq_ok_iff.mp hsecond
  have hboth : ∀ t ∈ front ++ behind, ¬ t.is .endOfSource := by
    intro t ht
    exact (List.mem_append.mp ht).elim (hfront t) (hbehind t)
  rw [ofTokens_eq_ok_iff]
  simp only [Listing.ofTokens, beforeEnd_append hfront heof₁, beforeEnd_append hbehind heof₂,
    beforeEnd_append hboth heof] at noErrors₁ noErrors₂ ⊢
  have noElse : NoElse behind := by
    have derived := (read_derives 0 behind noErrors₂).noElse noElse_nil
    rwa [List.append_nil] at derived
  have joined := Listing.read_followed (endLine (front ++ behind ++ [eof])) 0 noElse 0 front
    noErrors₁
  have later := Listing.read_followed (endLine (front ++ behind ++ [eof]))
    (Listing.read (endLine (front ++ [eof₁])) 0 front).nextId noElse_nil 0 behind noErrors₂
  rw [List.append_nil, Nat.zero_add] at later
  simp only [Nat.add_zero, later, Stmt.raisedAll_zero] at joined
  rw [joined]
  simp [Listing.read]

namespace AssignmentBeforeCondition

def name (text : String) : Token := ⟨.symbol .identifier, text, 1⟩

def symbol (s : Symbol) : Token := ⟨.symbol s, s.name, 1⟩

/-- `a = b;`, of which the target takes an identity that no node keeps -/
def front : List Token := [name "a", symbol .equal, name "b", symbol .semicolon]

/-- `if (c) d();` -/
def behind : List Token :=
  [symbol .ifWord, symbol .leftParen, name "c", symbol .rightParen, name "d", symbol .leftParen,
    symbol .rightParen, symbol .semicolon]

def endOn (line : Nat) : Token := ⟨.symbol .endOfSource, "", line⟩

theorem both_joined :
    (∀ t ∈ front, ¬ t.is .endOfSource) ∧ (∀ t ∈ behind, ¬ t.is .endOfSource) ∧
      Stmt.ofTokens (front ++ [endOn 1]) = .ok [.expr (.assign 2 (name "a") (.var 1 (name "b")))] ∧
      Stmt.ofTokens (behind ++ [endOn 2]) =
        .ok [.cond (.var 0 (name "c"))
          (.expr (.call (.var 1 (name "d")) (symbol .rightParen) [])) none] ∧
      Stmt.ofTokens (front ++ behind ++ [endOn 3]) =
        .ok [.expr (.assign 2 (name "a") (.var 1 (name "b"))),
          .cond (.var 3 (name "c"))
            (.expr (.call (.var 4 (name "d")) (symbol .rightParen) [])) none] := by
  have hfront : ∀ t ∈ front, ¬ t.is .endOfSource := by decide
  have hbehind : ∀ t ∈ behind, ¬ t.is .endOfSource := by decide
  have readFront : Stmt.ofTokens (front ++ [endOn 1]) =
      .ok [.expr (.assign 2 (name "a") (.var 1 (name "b")))] := by with_unfolding_all rfl
  have readBehind : Stmt.ofTokens (behind ++ [endOn 2]) =
      .ok [.cond (.var 0 (name "c"))
        (.expr (.call (.var 1 (name "d")) (symbol .rightParen) [])) none] := by
    with_unfolding_all rfl
  have taken : (Listing.ofTokens (front ++ [endOn 1])).nextId = 3 := by with_unfolding_all rfl
  have isEnd : ∀ line, (endOn line).is .endOfSource := fun _ => rfl
  have joined := ofTokens_joined hfront hbehind (isEnd 1) (isEnd 2) (isEnd 3) readFront readBehind
  rw [taken] at joined
  exact ⟨hfront, hbehind, readFront, readBehind, joined⟩

end AssignmentBeforeCondition

end ClassScript
