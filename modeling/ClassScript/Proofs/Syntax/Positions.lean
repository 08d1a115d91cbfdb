import ClassScript.Syntax.Parser
import ClassScript.Proofs.Syntax.Joined
import Mathlib.Data.List.TakeWhile

/-! The positions of a parser, and what its operations do there. A parser stands in front of some of
the tokens before the end; where none is left it still sees a token, which is the end of the source
or the last token. -/
namespace ClassScript.Parser

variable {ts rest : List Token} {t : Token} {n : Nat}

/-- The parser in front of these tokens, which are the last ones before the end. -/
def standing (ts rest : List Token) (n : Nat) : Parser :=
  ⟨ts, (beforeEnd ts).length - rest.length, n⟩

@[simp] theorem standing_tokens (ts rest : List Token) (n : Nat) :
    (standing ts rest n).tokens = ts := rfl

/-- These tokens are the last ones before the end. -/
def Left (ts rest : List Token) : Prop := rest <:+ beforeEnd ts

/-- The token in front of these is no literal if they are none. -/
def Ready (ts rest : List Token) : Prop :=
  Left ts rest ∧ (rest = [] → ∀ last ∈ (beforeEnd ts).getLast?, ∃ s, last.kind = .symbol s)

theorem Left.new (ts : List Token) : Left ts (beforeEnd ts) := List.suffix_refl _

theorem Left.behind (h : Left ts (t :: rest)) : Left ts rest := (List.suffix_cons t rest).trans h

theorem Left.ready_cons (h : Left ts (t :: rest)) : Ready ts (t :: rest) := ⟨h, nofun⟩

theorem Left.ready_behind (h : Left ts (t :: rest)) {s : Symbol} (ht : t.is s) : Ready ts rest := by
  refine ⟨h.behind, ?_⟩
  rintro rfl last hlast
  obtain ⟨front, hfront⟩ := h
  rw [← hfront, List.getLast?_concat] at hlast
  cases hlast
  exact ⟨s, Token.is_iff.mp ht⟩

theorem new_eq_standing (ts : List Token) : new ts = standing ts (beforeEnd ts) 0 := by
  simp [new, standing]

theorem getElem?_of_left (h : Left ts (t :: rest)) :
    ts[(beforeEnd ts).length - (rest.length + 1)]? = some t := by
  obtain ⟨front, hfront⟩ := h
  obtain ⟨behind, hbehind⟩ : beforeEnd ts <+: ts := List.takeWhile_prefix _
  have hts : ts = front ++ t :: (rest ++ behind) := by
    rw [← hbehind, ← hfront, List.append_assoc, List.cons_append]
  have hindex : (beforeEnd ts).length - (rest.length + 1) = front.length := by
    rw [← hfront, List.length_append, List.length_cons]
    omega
  rw [hindex, hts]
  simp

theorem length_of_left (h : Left ts rest) : rest.length ≤ (beforeEnd ts).length := h.length_le

theorem beforeEnd_length_le (ts : List Token) : (beforeEnd ts).length ≤ ts.length :=
  (List.takeWhile_prefix _).length_le

theorem beforeEnd_noEnd (ts : List Token) : ∀ t ∈ beforeEnd ts, ¬ t.is .endOfSource := by
  intro t ht
  simpa using List.mem_takeWhile_imp ht

theorem is_not_end (h : Left ts (t :: rest)) : t.is .endOfSource = false :=
  Bool.eq_false_iff.mpr (beforeEnd_noEnd ts t (h.subset (by simp)))

theorem peek_cons (h : Left ts (t :: rest)) :
    peek.run (standing ts (t :: rest) n) = some (t, standing ts (t :: rest) n) := by
  have hl := length_of_left h
  have hle := beforeEnd_length_le ts
  have hindex : min ((beforeEnd ts).length - (rest.length + 1)) (ts.length - 1) =
      (beforeEnd ts).length - (rest.length + 1) := by
    rw [List.length_cons] at hl
    omega
  simp only [peek, tokenAt, StateT.run, standing, List.length_cons, hindex, getElem?_of_left h,
    Option.map_some]

theorem previous_behind (h : Left ts (t :: rest)) :
    previous.run (standing ts rest n) = some (t, standing ts rest n) := by
  simp only [previous, tokenAt, StateT.run, standing, Nat.sub_sub, getElem?_of_left h,
    Option.map_some]

theorem atEnd_cons (h : Left ts (t :: rest)) :
    atEnd.run (standing ts (t :: rest) n) = some (false, standing ts (t :: rest) n) := by
  have hl := length_of_left h
  have hle := beforeEnd_length_le ts
  have inside : (standing ts (t :: rest) n).position < ts.length := by
    simp only [standing, List.length_cons] at hl ⊢
    omega
  simp [atEnd, Nat.not_le.mpr inside, peek_cons h, is_not_end h]

/-- Behind the tokens before the end stands an end of the source, if anything. -/
theorem before_end_cases (ts : List Token) :
    beforeEnd ts = ts ∨ ∃ eof more, eof.is .endOfSource ∧ ts = beforeEnd ts ++ eof :: more := by
  have cut := List.takeWhile_append_dropWhile (p := fun t : Token => !t.is .endOfSource) (l := ts)
  cases hd : ts.dropWhile fun t => !t.is .endOfSource with
  | nil =>
    rw [hd, List.append_nil] at cut
    exact .inl cut
  | cons eof more =>
    rw [hd] at cut
    refine .inr ⟨eof, more, ?_, cut.symm⟩
    have first := List.head?_dropWhile_not (fun t : Token => !t.is .endOfSource) ts
    rw [hd] at first
    simpa using first

/-- What the parser still sees where nothing is left. -/
theorem peek_nil (hts : ts ≠ []) (n : Nat) :
    ∃ t, peek.run (standing ts [] n) = some (t, standing ts [] n) ∧ t.line = endLine ts ∧
      (t.is .endOfSource ∨ beforeEnd ts = ts ∧ ts.getLast? = some t) := by
  have run : ∀ {t : Token}, ts[min (beforeEnd ts).length (ts.length - 1)]? = some t →
      peek.run (standing ts [] n) = some (t, standing ts [] n) := by
    intro t ht
    simp [peek, tokenAt, StateT.run, standing, ht]
  rcases before_end_cases ts with whole | ⟨eof, more, isEnd, cut⟩
  · obtain ⟨last, hlast⟩ : ∃ last, ts.getLast? = some last :=
      ⟨_, List.getLast?_eq_some_getLast hts⟩
    refine ⟨last, run ?_, ?_, .inr ⟨whole, hlast⟩⟩
    · rw [whole, Nat.min_eq_right (Nat.sub_le _ _), ← List.getLast?_eq_getElem?, hlast]
    · have noEnd : ts.find? (·.is .endOfSource) = none :=
        List.find?_eq_none.mpr (whole ▸ beforeEnd_noEnd ts)
      rw [endLine, noEnd, hlast]
      rfl
  · refine ⟨eof, run ?_, ?_, .inl isEnd⟩
    · have hlength := congrArg List.length cut
      rw [List.length_append, List.length_cons] at hlength
      rw [Nat.min_eq_left (by omega)]
      exact (congrArg (·[(beforeEnd ts).length]?) cut).trans (by simp)
    · exact ((congrArg endLine cut).trans (endLine_append (beforeEnd_noEnd ts) isEnd more)).symm

theorem atEnd_nil (hts : ts ≠ []) (n : Nat) :
    atEnd.run (standing ts [] n) = some (true, standing ts [] n) := by
  obtain ⟨t, hpeek, -, isEnd | ⟨whole, -⟩⟩ := peek_nil hts n
  · by_cases hl : ts.length ≤ (standing ts [] n).position
    · simp [atEnd, hl]
    · simp [atEnd, hl, hpeek, isEnd]
  · have hl : ts.length ≤ (standing ts [] n).position := by
      simp [standing, whole]
    simp [atEnd, hl]

theorem check_cons (h : Left ts (t :: rest)) (s : Symbol) :
    (check s).run (standing ts (t :: rest) n) = some (t.is s, standing ts (t :: rest) n) := by
  simp [check, atEnd_cons h, peek_cons h]

theorem check_nil (hts : ts ≠ []) (s : Symbol) :
    (check s).run (standing ts [] n) = some (false, standing ts [] n) := by
  simp [check, atEnd_nil hts]

theorem standing_succ (h : Left ts (t :: rest)) :
    { tokens := ts, position := (standing ts (t :: rest) n).position + 1,
      nextId := (standing ts (t :: rest) n).nextId } = standing ts rest n := by
  have hl := length_of_left h
  simp only [standing, List.length_cons, Parser.mk.injEq, true_and, and_true] at hl ⊢
  omega

theorem advance_cons (h : Left ts (t :: rest)) :
    advance.run (standing ts (t :: rest) n) = some (t, standing ts rest n) := by
  simp [advance, atEnd_cons h, standing_succ h, previous_behind h]

theorem previous_runs (hts : ts ≠ []) (n : Nat) :
    ∃ t, previous.run (standing ts [] n) = some (t, standing ts [] n) := by
  have hlt : (beforeEnd ts).length - 1 < ts.length := by
    have hle := beforeEnd_length_le ts
    have hpos := List.length_pos_iff.mpr hts
    omega
  exact ⟨ts[(beforeEnd ts).length - 1], by simp [previous, tokenAt, StateT.run, standing, hlt]⟩

theorem advance_nil (hts : ts ≠ []) (n : Nat) :
    ∃ t, advance.run (standing ts [] n) = some (t, standing ts [] n) := by
  obtain ⟨t, hprevious⟩ := previous_runs hts n
  exact ⟨t, by simp [advance, atEnd_nil hts, hprevious]⟩

theorem accept_cons (h : Left ts (t :: rest)) (s : Symbol) :
    (accept s).run (standing ts (t :: rest) n) =
      some (t.is s, standing ts (if t.is s then rest else t :: rest) n) := by
  cases ht : t.is s <;> simp [accept, check_cons h, ht, advance_cons h]

theorem accept_nil (hts : ts ≠ []) (s : Symbol) :
    (accept s).run (standing ts [] n) = some (false, standing ts [] n) := by
  simp [accept, check_nil hts]

theorem accept_is (h : Left ts (t :: rest)) {s : Symbol} (ht : t.is s) :
    (accept s).run (standing ts (t :: rest) n) = some (true, standing ts rest n) := by
  rw [accept_cons h, ht, if_pos rfl]

theorem accept_other (h : Left ts (t :: rest)) {s : Symbol} (ht : t.is s = false) :
    (accept s).run (standing ts (t :: rest) n) = some (false, standing ts (t :: rest) n) := by
  rw [accept_cons h, ht, if_neg Bool.false_ne_true]

theorem acceptAny_cons (h : Left ts (t :: rest)) (symbols : List Symbol) :
    (acceptAny symbols).run (standing ts (t :: rest) n) =
      some (symbols.any t.is, standing ts (if symbols.any t.is then rest else t :: rest) n) := by
  induction symbols with
  | nil => rfl
  | cons s symbols ih =>
    rw [acceptAny]
    cases ht : t.is s <;> simp [accept_cons h, ht, ih]

theorem acceptAny_nil (hts : ts ≠ []) (symbols : List Symbol) :
    (acceptAny symbols).run (standing ts [] n) = some (false, standing ts [] n) := by
  induction symbols with
  | nil => rfl
  | cons s symbols ih => simp [acceptAny, accept_nil hts, ih]

theorem checkAny_cons (h : Left ts (t :: rest)) (symbols : List Symbol) :
    (checkAny symbols).run (standing ts (t :: rest) n) =
      some (symbols.any t.is, standing ts (t :: rest) n) := by
  induction symbols with
  | nil => rfl
  | cons s symbols ih =>
    rw [checkAny]
    cases ht : t.is s <;> simp [check_cons h, ht, ih]

theorem checkAny_nil (hts : ts ≠ []) (symbols : List Symbol) :
    (checkAny symbols).run (standing ts [] n) = some (false, standing ts [] n) := by
  induction symbols with
  | nil => rfl
  | cons s symbols ih => simp [checkAny, check_nil hts, ih]

theorem peek_line (hts : ts ≠ []) (h : Left ts rest) (n : Nat) :
    ∃ t, peek.run (standing ts rest n) = some (t, standing ts rest n) ∧
      t.line = lineAt (endLine ts) rest := by
  cases rest with
  | nil =>
    obtain ⟨t, hpeek, hline, -⟩ := peek_nil hts n
    exact ⟨t, hpeek, hline⟩
  | cons t rest => exact ⟨t, peek_cons h, rfl⟩

theorem freshId_runs (rest : List Token) (n : Nat) :
    freshId.run (standing ts rest n) = some (n, standing ts rest (n + 1)) := rfl

/-- A turn for each token that is left and one more are enough. -/
theorem resume_runs (hts : ts ≠ []) {last : Token} (h : Left ts (last :: rest)) {turns : Nat}
    (enough : rest.length < turns) (n : Nat) :
    (resume turns).run (standing ts rest n) = some ((), standing ts (resumeAfter last rest) n) := by
  induction turns generalizing last rest with
  | zero => exact absurd enough (Nat.not_lt_zero _)
  | succ turns ih =>
    rw [resume]
    cases rest with
    | nil => simp [atEnd_nil hts, resumeAfter]
    | cons t rest =>
      rw [resumeAfter]
      by_cases hlast : last.is .semicolon
      · simp [atEnd_cons h.behind, previous_behind h, hlast]
      · by_cases ht : startsStatement t
        · simp [atEnd_cons h.behind, previous_behind h, peek_cons h.behind, hlast, ht]
        · have later := ih h.behind (Nat.lt_of_succ_lt_succ enough)
          simp [atEnd_cons h.behind, previous_behind h, peek_cons h.behind, advance_cons h.behind,
            hlast, ht, later]

theorem synchronize_runs (hts : ts ≠ []) (h : Left ts rest) (n : Nat) :
    synchronize.run (standing ts rest n) =
      some ((), standing ts (ClassScript.synchronize rest) n) := by
  cases rest with
  | nil =>
    obtain ⟨t, hadvance⟩ := advance_nil hts n
    simp [synchronize, hadvance, resume, atEnd_nil hts, ClassScript.synchronize]
  | cons t rest =>
    have enough : rest.length < ts.length + 1 := by
      have inside := length_of_left h.behind
      have hle := beforeEnd_length_le ts
      omega
    simp [synchronize, advance_cons h, resume_runs hts h enough, ClassScript.synchronize]

section Runs

variable {α β : Type} {x : Rule α} {step : Step α} {k : α → Rule β} {p p' : Parser} {value : α}
  {error : SyntaxError}

theorem run_bind_ok (h : x.run.run p = some (.ok value, p')) :
    (x >>= k).run.run p = (k value).run.run p' := by
  simp [ExceptT.run_bind, h]

theorem run_bind_error (h : x.run.run p = some (.error error, p')) :
    (x >>= k).run.run p = some (.error error, p') := by
  simp [ExceptT.run_bind, h]

theorem run_bind_step (h : step.run p = some (value, p')) :
    ((liftM step : Rule α) >>= k).run.run p = (k value).run.run p' := by
  simp [ExceptT.run_bind, h]

theorem run_bind_get {k : Parser → Rule β} : (get >>= k).run.run p = (k p).run.run p := rfl

theorem choice_bind {op : Step Bool} {x y : Rule α} :
    (liftM op >>= fun b => if b = true then x else y) >>= k =
      (liftM op : Rule Bool) >>= fun b => if b = true then x >>= k else y >>= k := by
  rw [bind_assoc]
  refine bind_congr fun b => ?_
  cases b <;> rfl

end Runs

/-- From here on the rule fails and leaves these tokens. -/
def Fails {α : Type} (ts : List Token) (error : SyntaxError) (rest : List Token) (x : Rule α)
    (p : Parser) : Prop :=
  Left ts rest ∧ ∃ next, x.run.run p = some (.error error, standing ts rest next)

/-- From here on the rule goes the way of the reading, with values that differ by `f`. What is left
has the property `Q` if it succeeds. -/
def Tracks {α β : Type} {m : Nat} (ts : List Token) (Q : List Token → Prop) (f : α → β)
    (r : Reading α m) (x : Rule β) (p : Parser) : Prop :=
  match r with
  | .done value next rest _ => Q rest ∧ x.run.run p = some (.ok (f value), standing ts rest next)
  | .failed error rest _ => Fails ts error rest x p

namespace Fails

variable {α β : Type} {error : SyntaxError} {x y : Rule α} {p p' : Parser}

theorem of_run (h : Fails ts error rest y p') (hrun : x.run.run p = y.run.run p') :
    Fails ts error rest x p := ⟨h.1, h.2.imp fun _ => hrun.trans⟩

/-- What follows a failure is not run. -/
theorem bind (h : Fails ts error rest x p) (k : α → Rule β) : Fails ts error rest (x >>= k) p :=
  ⟨h.1, h.2.imp fun _ => run_bind_error⟩

/-- A rule fails at the next token. -/
theorem peek (hts : ts ≠ []) (h : Left ts rest) (cause : SyntaxFault) (n : Nat) :
    Fails ts ⟨cause, lineAt (endLine ts) rest⟩ rest
      ((liftM Parser.peek >>= fun t => throw ⟨cause, t.line⟩ : Rule α)) (standing ts rest n) := by
  obtain ⟨t, hpeek, hline⟩ := peek_line hts h n
  exact ⟨h, n, (run_bind_step hpeek).trans (by rw [hline]; rfl)⟩

theorem consume (hts : ts ≠ []) (h : Left ts rest) {s : Symbol} (hs : ∀ t ∈ rest.head?, ¬ t.is s)
    (cause : SyntaxFault) (n : Nat) :
    Fails ts ⟨cause, lineAt (endLine ts) rest⟩ rest (consume s cause) (standing ts rest n) := by
  refine (peek hts h cause n).of_run ?_
  cases rest with
  | nil => exact run_bind_step (check_nil hts s)
  | cons t rest =>
    refine (run_bind_step (check_cons h s)).trans ?_
    rw [if_neg (hs t rfl)]

end Fails

/-- The next token is taken. -/
theorem consume_runs (h : Left ts (t :: rest)) {s : Symbol} (ht : t.is s) (cause : SyntaxFault) :
    (consume s cause).run.run (standing ts (t :: rest) n) = some (.ok t, standing ts rest n) := by
  refine (run_bind_step (check_cons h s)).trans ?_
  rw [if_pos ht]
  simp [advance_cons h]

namespace Tracks

variable {α β γ δ : Type} {m m' : Nat} {Q Q' : List Token → Prop} {f : α → β} {r r' : Reading α m}
  {x y : Rule β} {p p' : Parser} {s : Symbol}

theorem imp (h : Tracks ts Q f r x p) (hq : ∀ rest, Q rest → Q' rest) : Tracks ts Q' f r x p := by
  cases r with
  | done value next rest => exact ⟨hq rest h.1, h.2⟩
  | failed => exact h

theorem within (h : Tracks ts Q f r x p) (hm : m ≤ m') :
    Tracks ts Q f (r.within hm : Reading α m') x p := by
  cases r <;> exact h

/-- Only the run of the rule counts. -/
theorem of_run (h : Tracks ts Q f r y p') (hrun : x.run.run p = y.run.run p') :
    Tracks ts Q f r x p := by
  cases r with
  | done => exact ⟨h.1, hrun.trans h.2⟩
  | failed => exact Fails.of_run h hrun

theorem bind (h : Tracks ts Q f r x p) {g : γ → δ} {k : β → Rule δ}
    {next : (value : α) → (nextId : Nat) → (rest : List Token) → rest.length < m → Reading γ m'}
    {hm : m ≤ m'} (hnext : ∀ value n rest hl, Q rest →
      Tracks ts Q' g (next value n rest hl) (k (f value)) (standing ts rest n)) :
    Tracks ts Q' g (r.andThen next hm) (x >>= k) p := by
  cases r with
  | done value n rest hl => exact (hnext value n rest hl h.1).of_run (run_bind_ok h.2)
  | failed => exact Fails.bind h k

theorem pure {value : α} {v : β} (hQ : Q rest) (hv : v = f value) {hl : rest.length < m} :
    Tracks ts Q f (.done value n rest hl) (pure v) (standing ts rest n) := by
  subst hv
  exact ⟨hQ, rfl⟩

theorem map (h : Tracks ts Q f r x p) {F : α → γ} {g : γ → δ} {G : β → δ} {hm : m ≤ m'}
    (hv : ∀ value, G (f value) = g (F value)) :
    Tracks ts Q g (r.map F hm : Reading γ m') (x >>= fun v => Pure.pure (G v)) p :=
  h.bind fun _ _ _ _ hQ => .pure hQ (hv _)

/-- The reading gives other values than the rule. -/
theorem mapped {f' : α → β} (h : Tracks ts Q f' r x p) {F : α → γ} {f : γ → β} {hm : m ≤ m'}
    (hv : ∀ value, f' value = f (F value)) : Tracks ts Q f (r.map F hm : Reading γ m') x p := by
  cases r with
  | done value next rest => exact ⟨h.1, hv value ▸ h.2⟩
  | failed => exact h

theorem step {op : Step γ} {v : γ} {k : γ → Rule β} (hop : op.run p = some (v, p'))
    (h : Tracks ts Q f r (k v) p') : Tracks ts Q f r (liftM op >>= k) p :=
  h.of_run (run_bind_step hop)

/-- A rule goes one way or the other, as the reading does. -/
theorem branch {op : Step Bool} {b : Bool} {p₁ : Parser} (hop : op.run p = some (b, p₁))
    (yes : b → Tracks ts Q f r x p₁) (no : ¬ b → Tracks ts Q f r' y p₁) :
    Tracks ts Q f (if b then r else r') (liftM op >>= fun b => if b = true then x else y) p := by
  split
  case isTrue hb => exact (yes hb).of_run ((run_bind_step hop).trans (by rw [if_pos hb]))
  case isFalse hb => exact (no hb).of_run ((run_bind_step hop).trans (by rw [if_neg hb]))

theorem skip {op : Step Bool} (hop : op.run p = some (false, p')) (no : Tracks ts Q f r y p') :
    Tracks ts Q f r (liftM op >>= fun b => if b = true then x else y) p :=
  no.of_run (run_bind_step hop)

theorem go {op : Step Bool} (hop : op.run p = some (true, p')) (yes : Tracks ts Q f r x p') :
    Tracks ts Q f r (liftM op >>= fun b => if b = true then x else y) p :=
  yes.of_run (run_bind_step hop)

theorem accept (h : Left ts (t :: rest)) (yes : t.is s → Tracks ts Q f r x (standing ts rest n))
    (no : ¬ t.is s → Tracks ts Q f r' y (standing ts (t :: rest) n)) :
    Tracks ts Q f (if t.is s then r else r')
      (liftM (accept s) >>= fun passed => if passed = true then x else y)
      (standing ts (t :: rest) n) :=
  branch (accept_cons h s) (fun ht => by rw [if_pos ht]; exact yes ht)
    fun ht => by rw [if_neg ht]; exact no ht

theorem accepted (h : Left ts (t :: rest)) (ht : t.is s)
    (yes : Tracks ts Q f r x (standing ts rest n)) :
    Tracks ts Q f r (liftM (Parser.accept s) >>= fun passed => if passed = true then x else y)
      (standing ts (t :: rest) n) := go (accept_is h ht) yes

theorem declined (h : Left ts (t :: rest)) (ht : t.is s = false)
    (no : Tracks ts Q f r y (standing ts (t :: rest) n)) :
    Tracks ts Q f r (liftM (Parser.accept s) >>= fun passed => if passed = true then x else y)
      (standing ts (t :: rest) n) := skip (accept_other h ht) no

theorem consume (hts : ts ≠ []) (h : Left ts rest) (s : Symbol) (cause : SyntaxFault) (n : Nat) :
    Tracks ts (Ready ts) (fun t => t) (expect (endLine ts) s cause n rest) (consume s cause)
      (standing ts rest n) := by
  cases rest with
  | nil => exact Fails.consume hts h nofun cause n
  | cons t rest =>
    rw [expect]
    split
    case isTrue ht => exact ⟨h.ready_behind ht, consume_runs h ht cause⟩
    case isFalse ht => exact Fails.consume hts h (by simpa using ht) cause n

theorem consumed (h : Left ts (t :: rest)) (ht : t.is s) {cause : SyntaxFault} {k : Token → Rule β}
    (next : Tracks ts Q f r (k t) (standing ts rest n)) :
    Tracks ts Q f r (Parser.consume s cause >>= k) (standing ts (t :: rest) n) :=
  next.of_run (run_bind_ok (consume_runs h ht cause))

end Tracks

end ClassScript.Parser
