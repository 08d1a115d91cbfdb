import ClassScript.Proofs.Syntax.Braces
import ClassScript.Proofs.Syntax.Segments

/-! Errors inside blocks. A block fails with the declaration that fails in it, and every declaration
that fails skips to a place where a statement may begin; so an error in nested blocks skips once for
each block that it leaves, and what is read then is what is left of the blocks. -/
namespace ClassScript

open Reading Grammar

/-- The places inside the tokens at which skipping stops: those behind a semicolon or in front of a
word that begins a statement. -/
def boundaries : List Token → Nat
  | [] => 0
  | [_] => 0
  | t :: u :: rest =>
    (if t.is .semicolon || startsStatement u then 1 else 0) + boundaries (u :: rest)

/-- Skipping ends at the next boundary, or at the end of the tokens if there is none. -/
theorem resumeAfter_boundaries (last : Token) (ts : List Token) :
    (resumeAfter last ts = [] ∧ boundaries (last :: ts) = 0) ∨
      (resumeAfter last ts ≠ [] ∧
        boundaries (last :: ts) = boundaries (resumeAfter last ts) + 1) := by
  induction ts generalizing last with
  | nil => exact .inl ⟨rfl, rfl⟩
  | cons t rest ih =>
    rw [resumeAfter, boundaries]
    split
    case isTrue => exact .inr ⟨List.cons_ne_nil _ _, Nat.add_comm _ _⟩
    case isFalse => rw [Nat.zero_add]; exact ih t

theorem synchronize_boundaries {ts : List Token} (h : ts ≠ []) :
    (synchronize ts = [] ∧ boundaries ts = 0) ∨
      (synchronize ts ≠ [] ∧ boundaries ts = boundaries (synchronize ts) + 1) := by
  cases ts with
  | nil => exact absurd rfl h
  | cons t rest => exact resumeAfter_boundaries t rest

theorem synchronize_iterate_nil (k : Nat) : synchronize^[k] [] = [] :=
  Function.iterate_fixed rfl k

/-- Skipping `k` times takes up everything if there are fewer boundaries than that. -/
theorem synchronize_iterate_eq_nil_iff (k : Nat) {ts : List Token} (h : ts ≠ []) :
    synchronize^[k] ts = [] ↔ boundaries ts < k := by
  induction k generalizing ts with
  | zero => simp [h]
  | succ k ih =>
    rw [Function.iterate_succ_apply]
    obtain ⟨hs, hb⟩ | ⟨hs, hb⟩ := synchronize_boundaries h
    · simp [hs, hb, synchronize_iterate_nil]
    · rw [ih hs, hb, Nat.succ_lt_succ_iff]

theorem synchronize_iterate_suffix (k : Nat) (ts : List Token) : synchronize^[k] ts <:+ ts := by
  induction k with
  | zero => exact List.suffix_rfl
  | succ k ih =>
    rw [Function.iterate_succ_apply']
    exact (synchronize_suffix _).trans ih

section Blocks

variable {endLine n : Nat} {ts us : List Token} {error : SyntaxError}

namespace Reading

variable {α β : Type} {m m' : Nat}

/-- The reading fails with this error and leaves these tokens. -/
def Fails (error : SyntaxError) (us : List Token) : Reading α m → Prop
  | done _ _ _ _ => False
  | failed e rest _ => e = error ∧ rest = us

theorem Fails.andThen {r : Reading α m} (h : r.Fails error us)
    (next : (value : α) → (nextId : Nat) → (rest : List Token) → rest.length < m → Reading β m')
    (hm : m ≤ m') : (r.andThen next hm).Fails error us := by
  cases r with
  | done => exact h.elim
  | failed => exact h

theorem Fails.map {r : Reading α m} (h : r.Fails error us) (f : α → β) (hm : m ≤ m') :
    (r.map f hm : Reading β m').Fails error us := h.andThen _ hm

theorem Fails.recover {r : Reading α m} (h : r.Fails error us) :
    (r.recover synchronize synchronize_length_le).Fails error (synchronize us) := by
  cases r with
  | done => exact h.elim
  | failed => exact ⟨h.1, congrArg synchronize h.2⟩

end Reading

/-- A block fails with its first declaration. -/
theorem block_fails {t : Token} {rest : List Token} (ht : ¬ t.is .rightBrace)
    (h : (declaration endLine n (t :: rest)).Fails error us) :
    (block endLine n (t :: rest)).Fails error (synchronize us) := by
  rw [block, if_neg ht]
  exact h.recover.andThen _ _

/-- A declaration that is a block fails with the block. -/
theorem declaration_block_fails {t : Token} {rest : List Token} (ht : t.is .leftBrace)
    (h : (block endLine n rest).Fails error us) :
    (declaration endLine n (t :: rest)).Fails error us := by
  simp only [declaration, statement, Token.is_other ht, ht, ne_eq, reduceCtorEq, not_false_eq_true,
    Bool.false_eq_true, if_false, if_true]
  exact h.map _ _

/-- The blocks that begin one behind the other fail from the inside out, and each but the outermost
skips what it leaves to the next one. -/
theorem declaration_nested_fails {outer : Token} {openers inner : List Token}
    (ho : ∀ t ∈ outer :: openers, t.is .leftBrace)
    (h : (block endLine n inner).Fails error us) :
    (declaration endLine n (outer :: (openers ++ inner))).Fails error
      (synchronize^[openers.length] us) := by
  induction openers generalizing outer with
  | nil => exact declaration_block_fails (ho outer (by simp)) h
  | cons next openers ih =>
    have isOpen : next.is .leftBrace := ho next (by simp)
    have behind := ih fun t ht => ho t (List.mem_cons_of_mem _ ht)
    refine declaration_block_fails (ho outer (by simp)) ?_
    rw [List.length_cons, Function.iterate_succ_apply']
    exact block_fails (by simp [Token.is_other isOpen]) behind

/-- No declaration begins with the brace that closes a block. -/
theorem Grammar.Sentence.Derives.not_rightBrace {ss : List Stmt} {t : Token} {rest : List Token}
    (h : (Sentence.declarations ss).Derives ts) (hts : ts = t :: rest) : ¬ t.is .rightBrace := by
  have begins : Begins declarationStart ts := by
    cases h with
    | noDeclarations => exact absurd hts (List.cons_ne_nil _ _).symm
    | declarations first more => exact first.begins_declaration.append _
  obtain ⟨u, more, rfl, among⟩ := begins
  obtain ⟨rfl, rfl⟩ := List.cons.inj hts
  simp [among.is_other (s := .rightBrace) (by decide)]

theorem block_done {t : Token} {rest more : List Token} {s : Stmt} {next : Nat}
    {hl : more.length < (t :: rest).length} (ht : ¬ t.is .rightBrace)
    (hd : declaration endLine n (t :: rest) = .done s next more hl) :
    block endLine n (t :: rest) = (block endLine next more).map (s :: ·) (Nat.le_of_lt hl) := by
  rw [block, if_neg ht]
  simp only [hd, Reading.recover, Reading.andThen]

/-- Behind declarations a block goes on with what follows them. -/
theorem block_followed_fails {endLine' n : Nat} {front : List Token} (k : Nat) (noElse : NoElse ts)
    (hfront : (Listing.read endLine' n front).errors = [])
    (h : ∀ n, (block endLine n ts).Fails error us) :
    (block endLine (n + k) (front ++ ts)).Fails error us := by
  have derived := read_derives n front hfront
  cases front with
  | nil => exact h _
  | cons t rest =>
    have follows : Follows endLine' endLine k ts (Stmt.raised k)
        (declaration endLine' n (t :: rest))
        (declaration endLine (n + k) (t :: (rest ++ ts))) :=
      declaration_follows noElse n (t :: rest)
    cases hd : declaration endLine' n (t :: rest) with
    | failed e more hl => simp [Listing.read_failed (List.cons_ne_nil t rest) hd] at hfront
    | done s next more hl =>
      rw [Listing.read_done hd] at hfront
      rw [hd] at follows
      cases hd' : declaration endLine (n + k) (t :: (rest ++ ts)) with
      | failed => rw [hd'] at follows; exact (follows nofun).elim
      | done s' next' more' hl' =>
        rw [hd'] at follows
        obtain ⟨-, rfl, rfl⟩ := follows nofun
        rw [List.cons_append, block_done (derived.not_rightBrace rfl) hd']
        exact (block_followed_fails k noElse hfront h).map _ _
termination_by front.length

/-- A malformed statement that begins a block ends it, and what stands behind the statement is
left. -/
theorem block_malformed_fails {endLine' : Nat} {m : List Token} (hm : Segment m)
    (noElse : NoElse us) (herror : (Listing.read endLine' 0 m).errors = [error]) (n : Nat) :
    (block endLine n (m ++ us)).Fails error us := by
  have leaves : (declaration endLine' 0 m).Leaves (· = []) ToSemicolon :=
    declaration_leaves 0 hm.toSemicolon
  have follows : Follows endLine' endLine n us (Stmt.raised n) (declaration endLine' 0 m)
      (declaration endLine (0 + n) (m ++ us)) := declaration_follows noElse 0 m
  rw [Nat.zero_add] at follows
  cases hd : declaration endLine' 0 m with
  | done s next rest hl =>
    rw [hd] at leaves
    obtain rfl : rest = [] := leaves
    simp [Listing.read_done hd, Listing.read] at herror
  | failed e rest hl =>
    rw [Listing.read_failed hm.toSemicolon.ne_nil hd] at herror
    obtain ⟨rfl, -⟩ := List.cons.inj herror
    rw [hd] at leaves follows
    have failing : (declaration endLine n (m ++ us)).Fails e (rest ++ us) := by
      cases hd' : declaration endLine n (m ++ us) with
      | done => rw [hd'] at follows; exact (follows leaves.ne_nil.elim).elim
      | failed => rw [hd'] at follows; exact follows fun hr => absurd hr leaves.ne_nil
    obtain ⟨t, more, rfl⟩ := List.exists_cons_of_ne_nil hm.toSemicolon.ne_nil
    have ended := block_fails (hm.noBrace t (by simp)).2 failing
    rwa [leaves.synchronize us] at ended

end Blocks

theorem Listing.read_fails {endLine n : Nat} {ts us : List Token} {error : SyntaxError}
    (hts : ts ≠ []) (h : (declaration endLine n ts).Fails error us) :
    (read endLine n ts).errors = error :: (read endLine n (synchronize us)).errors := by
  cases hd : declaration endLine n ts with
  | done => rw [hd] at h; exact h.elim
  | failed =>
    rw [hd] at h
    obtain ⟨rfl, rfl⟩ := h
    rw [read_failed hts hd]

/-- The error of a malformed statement in nested blocks is reported first. Reading resumes behind as
many boundaries as there are blocks, among what follows the statement and the braces that close the
blocks; and it reports more errors unless there are fewer boundaries than blocks. -/
theorem blocks_resumed {openers front malformed behind closers : List Token}
    {frontEnd behindEnd alone eof : Token} {first second : List Stmt} {error : SyntaxError}
    (nested : openers ≠ []) (hopen : ∀ t ∈ openers, t.is .leftBrace)
    (hclose : ∀ t ∈ closers, t.is .rightBrace) (pairs : openers.length = closers.length)
    (hfront : ∀ t ∈ front, ¬ t.is .endOfSource) (hbehind : ∀ t ∈ behind, ¬ t.is .endOfSource)
    (isFrontEnd : frontEnd.is .endOfSource) (isBehindEnd : behindEnd.is .endOfSource)
    (isAlone : alone.is .endOfSource) (isEnd : eof.is .endOfSource)
    (hfirst : Stmt.ofTokens (front ++ [frontEnd]) = .ok first)
    (hsecond : Stmt.ofTokens (behind ++ [behindEnd]) = .ok second)
    (segment : Segment malformed) (fails : Stmt.ofTokens (malformed ++ [alone]) = .error [error]) :
    Stmt.ofTokens (openers ++ front ++ malformed ++ behind ++ closers ++ [eof]) =
        .error (error ::
          (Listing.read eof.line 0 (synchronize^[openers.length] (behind ++ closers))).errors) ∧
      (Stmt.ofTokens (openers ++ front ++ malformed ++ behind ++ closers ++ [eof]) =
        .error [error] ↔ boundaries (behind ++ closers) < openers.length) := by
  obtain ⟨noErrors₁, -⟩ := ofTokens_eq_ok_iff.mp hfirst
  obtain ⟨noErrors₂, -⟩ := ofTokens_eq_ok_iff.mp hsecond
  have own := errors_of_ofTokens fails
  simp only [Listing.ofTokens, beforeEnd_append hfront isFrontEnd,
    beforeEnd_append hbehind isBehindEnd, beforeEnd_append segment.noEnd isAlone]
    at noErrors₁ noErrors₂ own
  have closes : closers ≠ [] := by
    rw [ne_eq, ← List.length_eq_zero_iff, ← pairs, List.length_eq_zero_iff]
    exact nested
  have inner : ∀ t ∈ openers ++ front ++ malformed ++ behind ++ closers, ¬ t.is .endOfSource := by
    intro t ht
    simp only [List.mem_append] at ht
    obtain (((ht | ht) | ht) | ht) | ht := ht
    · simp [Token.is_other (hopen t ht)]
    · exact hfront t ht
    · exact segment.noEnd t ht
    · exact hbehind t ht
    · simp [Token.is_other (hclose t ht)]
  have noElse : NoElse (behind ++ closers) := by
    refine (read_derives 0 behind noErrors₂).noElse ?_
    obtain ⟨t, rest, rfl⟩ := List.exists_cons_of_ne_nil closes
    exact .of_is (hclose t (by simp)) (by decide) rest
  have block : ∀ n, (block eof.line n (front ++ (malformed ++ (behind ++ closers)))).Fails error
      (behind ++ closers) := by
    intro n
    rw [← Nat.zero_add n]
    exact block_followed_fails n (segment.noElse _) noErrors₁
      (block_malformed_fails segment noElse own)
  have errors :
      (Listing.ofTokens (openers ++ front ++ malformed ++ behind ++ closers ++ [eof])).errors =
        error ::
          (Listing.read eof.line 0 (synchronize^[openers.length] (behind ++ closers))).errors := by
    rw [Listing.ofTokens, beforeEnd_append inner isEnd, endLine_append inner isEnd]
    simp only [List.append_assoc]
    obtain ⟨outer, openers, rfl⟩ := List.exists_cons_of_ne_nil nested
    have failing := declaration_nested_fails hopen (block 0)
    rw [List.cons_append, Listing.read_fails (List.cons_ne_nil _ _) failing, List.length_cons,
      Function.iterate_succ_apply']
  have whole : Stmt.ofTokens (openers ++ front ++ malformed ++ behind ++ closers ++ [eof]) =
      .error (error ::
        (Listing.read eof.line 0 (synchronize^[openers.length] (behind ++ closers))).errors) := by
    simp only [Stmt.ofTokens, errors]
  refine ⟨whole, ?_⟩
  have rest := synchronize_iterate_eq_nil_iff openers.length
    (List.append_ne_nil_of_right_ne_nil behind closes)
  rw [whole, ← rest, ← Listing.read_closers eof.line 0 noErrors₂ hclose closes
    (synchronize_iterate_suffix _ _)]
  simp

namespace UnnamedInBlocks

def symbol (s : Symbol) : Token := ⟨.symbol s, s.name, 1⟩

/-- `a;` -/
def sound : List Token := [symbol .identifier, symbol .semicolon]

/-- `let ;` -/
def unnamed : List Token := [symbol .letWord, symbol .semicolon]

theorem unnamed_valid : Segment unnamed :=
  ⟨⟨[symbol .letWord], symbol .semicolon, rfl, rfl, by decide⟩, by decide, by decide,
    by simp [unnamed, symbol, Token.is], by decide⟩

theorem sound_noEnd : ∀ t ∈ sound, ¬ t.is .endOfSource := by decide

theorem sound_read : Stmt.ofTokens (sound ++ [symbol .endOfSource]) =
    .ok [.expr (.var 0 (symbol .identifier))] := by with_unfolding_all rfl

theorem unnamed_read :
    Stmt.ofTokens (unnamed ++ [symbol .endOfSource]) = .error [⟨.variableName, 1⟩] := by
  with_unfolding_all rfl

/-- `{ let ; a; }` has two errors: the block skips the sound statement behind the malformed one, and
what is read next is the brace. -/
theorem reported_twice :
    Segment unnamed ∧ Stmt.ofTokens (unnamed ++ [symbol .endOfSource]) =
      .error [⟨.variableName, 1⟩] ∧ Stmt.ofTokens [symbol .endOfSource] = .ok [] ∧
      Stmt.ofTokens (sound ++ [symbol .endOfSource]) = .ok [.expr (.var 0 (symbol .identifier))] ∧
      Stmt.ofTokens ([symbol .leftBrace] ++ [] ++ unnamed ++ sound ++ [symbol .rightBrace] ++
        [symbol .endOfSource]) = .error [⟨.variableName, 1⟩, ⟨.expression, 1⟩] := by
  refine ⟨unnamed_valid, unnamed_read, ?_, sound_read, ?_⟩ <;> with_unfolding_all rfl

/-- `{ { a; let ; a; } }` has one, since both blocks skip. -/
theorem reported_once :
    boundaries (sound ++ [symbol .rightBrace, symbol .rightBrace]) = 1 ∧
      Stmt.ofTokens ([symbol .leftBrace, symbol .leftBrace] ++ sound ++ unnamed ++ sound ++
        [symbol .rightBrace, symbol .rightBrace] ++ [symbol .endOfSource]) =
          .error [⟨.variableName, 1⟩] := by
  have isEnd : (symbol .endOfSource).is .endOfSource := rfl
  refine ⟨by decide, (blocks_resumed ?_ ?_ ?_ ?_ sound_noEnd sound_noEnd isEnd isEnd isEnd isEnd
    sound_read sound_read unnamed_valid unnamed_read).2.mpr ?_⟩ <;> decide

end UnnamedInBlocks

end ClassScript
