import ClassScript.Proofs.Syntax.Raised
import ClassScript.Proofs.Syntax.Recognition

/-! What stands behind the tokens of a reading. A rule looks one token ahead, so a reading that
leaves something, or fails at something, goes the same way with any other tokens behind. It does not
depend on the identity it begins with, but for the identities in its tree. The two are shown at
once, for readings that begin with any identities. -/
namespace ClassScript

/-- Nothing more follows, and the end of the source is on the same line. -/
def SameEnd (endLine endLine' : Nat) (us : List Token) : Prop := us = [] ∧ endLine' = endLine

namespace Reading

variable {α β : Type} {m n m' n' : Nat} {endLine endLine' k : Nat} {us : List Token}

/-- The second reading goes the way of the first one, with the tokens `us` behind what that one
leaves. The values differ by `f`, and the identities by `k`. -/
def Alike (f : α → α) (k : Nat) (us : List Token) : Reading α m → Reading α n → Prop
  | done value nextId rest _, done value' nextId' rest' _ =>
    value' = f value ∧ nextId' = nextId + k ∧ rest' = rest ++ us
  | failed error rest _, failed error' rest' _ => error' = error ∧ rest' = rest ++ us
  | _, _ => False

/-- The reading failed behind all its tokens. One that succeeds there is open too if its rule looks
for `more`. -/
def Open (more : Bool) : Reading α n → Prop
  | done _ _ rest _ => more ∧ rest = []
  | failed _ rest _ => rest = []

/-- The second reading goes the way of the first one. Where the first is open this is said only if
the end is the same for both. -/
def Agrees (more : Bool) (endLine endLine' k : Nat) (us : List Token) (f : α → α) (r : Reading α m)
    (r' : Reading α n) : Prop := (r.Open more → SameEnd endLine endLine' us) → Alike f k us r r'

/-- What the readings of a rule have in common when the rule may look for more behind its phrase. -/
abbrev Precedes (endLine endLine' k : Nat) (us : List Token) (f : α → α) (r : Reading α m)
    (r' : Reading α n) : Prop := Agrees true endLine endLine' k us f r r'

/-- The same when it does not. -/
abbrev Follows (endLine endLine' k : Nat) (us : List Token) (f : α → α) (r : Reading α m)
    (r' : Reading α n) : Prop := Agrees false endLine endLine' k us f r r'

variable {more more' : Bool} {f : α → α} {g : β → β} {r : Reading α m} {r' : Reading α n}

theorem Follows.precedes (h : Follows endLine endLine' k us f r r') :
    Precedes endLine endLine' k us f r r' := by
  intro ho
  refine h fun hr => ho ?_
  cases r with
  | done => exact absurd hr.1 Bool.false_ne_true
  | failed => exact hr

theorem Agrees.within (h : Agrees more endLine endLine' k us f r r') (hm : m ≤ m') (hn : n ≤ n') :
    Agrees more endLine endLine' k us f (r.within hm : Reading α m')
      (r'.within hn : Reading α n') := by
  intro ho
  have alike := h fun hr => ho (by cases r <;> exact hr)
  cases r <;> cases r' <;> exact alike

/-- Readings that agree go on in agreement. Where the first may look for more, the step behind it
has to be open in its turn if nothing is left. -/
theorem Agrees.andThen (h : Agrees more endLine endLine' k us f r r')
    {next : (value : α) → (nextId : Nat) → (rest : List Token) → rest.length < m → Reading β m'}
    {next' : (value : α) → (nextId : Nat) → (rest : List Token) → rest.length < n → Reading β n'}
    {hm : m ≤ m'} {hn : n ≤ n'}
    (hopen : more → ∀ value nextId hl, (next value nextId [] hl).Open more')
    (hnext : ∀ value nextId rest hl hl', Agrees more' endLine endLine' k us g
      (next value nextId rest hl) (next' (f value) (nextId + k) (rest ++ us) hl')) :
    Agrees more' endLine endLine' k us g (r.andThen next hm) (r'.andThen next' hn) := by
  intro ho
  have alike : Alike f k us r r' := by
    refine h fun hr => ho ?_
    cases r with
    | done value nextId rest hl =>
      obtain ⟨hmore, rfl⟩ := hr
      exact hopen hmore value nextId hl
    | failed => exact hr
  cases r with
  | done value nextId rest hl =>
    cases r' with
    | done value' nextId' rest' hl' =>
      obtain ⟨rfl, rfl, rfl⟩ := alike
      exact hnext value nextId rest hl hl' ho
    | failed => exact alike.elim
  | failed error rest hl =>
    cases r' with
    | done => exact alike.elim
    | failed => exact alike

/-- A reading that does not look for more goes on in agreement whatever the step behind it does. -/
theorem Follows.andThen (h : Follows endLine endLine' k us f r r')
    {next : (value : α) → (nextId : Nat) → (rest : List Token) → rest.length < m → Reading β m'}
    {next' : (value : α) → (nextId : Nat) → (rest : List Token) → rest.length < n → Reading β n'}
    {hm : m ≤ m'} {hn : n ≤ n'}
    (hnext : ∀ value nextId rest hl hl', Agrees more endLine endLine' k us g
      (next value nextId rest hl) (next' (f value) (nextId + k) (rest ++ us) hl')) :
    Agrees more endLine endLine' k us g (r.andThen next hm) (r'.andThen next' hn) :=
  Agrees.andThen h (fun looks => absurd looks Bool.false_ne_true) hnext

theorem Agrees.map {F F' : α → β} {hm : m ≤ m'} {hn : n ≤ n'}
    (h : Agrees more endLine endLine' k us f r r') (hF : ∀ value, F' (f value) = g (F value)) :
    Agrees more endLine endLine' k us g (r.map F hm : Reading β m')
      (r'.map F' hn : Reading β n') := by
  refine h.andThen (fun hmore _ _ _ => ⟨hmore, rfl⟩) ?_
  intro value nextId rest hl hl' _
  exact ⟨hF value, rfl, rfl⟩

end Reading

open Reading Grammar

section Expressions

variable {endLine endLine' k : Nat} {us : List Token}

theorem expect_follows (s : Symbol) (cause : SyntaxFault) (n : Nat) (ts : List Token) :
    Follows endLine endLine' k us (fun t => t) (expect endLine s cause n ts)
      (expect endLine' s cause (n + k) (ts ++ us)) := by
  cases ts with
  | nil =>
    intro ho
    obtain ⟨rfl, rfl⟩ := ho rfl
    exact ⟨rfl, rfl⟩
  | cons t ts =>
    intro _
    rw [List.cons_append, expect, expect]
    split
    · exact ⟨rfl, rfl, rfl⟩
    · exact ⟨rfl, rfl⟩

/-- No primary expression begins with the token. -/
theorem primary_refused {t : Token} {s : Symbol} (hk : t.kind = .symbol s) (hs : s ∉ primaryStart)
    (n : Nat) (ts : List Token) :
    primary endLine n (t :: ts) = .failed ⟨.expression, t.line⟩ (t :: ts) (Nat.le_refl _) := by
  rw [primary]
  simp only [hk]
  cases s <;> first | rfl | exact absurd (by decide) hs

theorem expression_nil (n : Nat) :
    expression endLine n [] = .failed ⟨.expression, endLine⟩ [] (Nat.le_refl _) := by
  simp [expression, operators, unary, postfixed, primary, levels, Reading.andThen]

mutual

theorem expression_precedes (n : Nat) (ts : List Token) :
    Precedes endLine endLine' k us (Expr.raised k) (expression endLine n ts)
      (expression endLine' (n + k) (ts ++ us)) := by
  rw [expression, expression]
  refine (operators_precedes levels levels_raise n ts).andThen (fun _ _ _ _ => ⟨rfl, rfl⟩) ?_
  intro target n₁ rest hl hl'
  cases rest with
  | nil =>
    intro ho
    obtain ⟨rfl, rfl⟩ := ho ⟨rfl, rfl⟩
    exact ⟨rfl, rfl, rfl⟩
  | cons equals more =>
    have hlt : more.length < ts.length := Nat.lt_of_succ_lt hl
    simp only [List.cons_append]
    split
    · refine (expression_precedes n₁ more).andThen ?_ ?_
      · intro _ value n₂ _
        cases target.assigned? value n₂ with
        | none => exact rfl
        | some e => exact ⟨rfl, rfl⟩
      · intro value n₂ rest₂ _ _ _
        rw [Expr.assigned?_raised]
        cases target.assigned? value n₂ with
        | none => exact ⟨rfl, rfl⟩
        | some e => exact ⟨rfl, rfl, rfl⟩
    · exact fun _ => ⟨rfl, rfl, rfl⟩
termination_by ts.length * 20 + 11
decreasing_by all_goals (try simp only [levels, List.length_cons, List.length_nil]); omega

theorem operators_precedes (levels : List Level) (hr : ∀ level ∈ levels, level.Raises) (n : Nat)
    (ts : List Token) :
    Precedes endLine endLine' k us (Expr.raised k) (operators endLine levels n ts)
      (operators endLine' levels (n + k) (ts ++ us)) := by
  match levels, hr with
  | [], _ =>
    rw [operators, operators]
    exact unary_precedes n ts
  | level :: tighter, hr =>
    have hr' : ∀ level ∈ tighter, level.Raises := fun l hl => hr l (by simp [hl])
    rw [operators, operators]
    refine (operators_precedes tighter hr' n ts).andThen ?_ ?_
    · intro _ left n₁ _
      rw [operatorChain]
      exact ⟨rfl, rfl⟩
    · intro left n₁ rest hl hl'
      exact (operatorChain_precedes level (hr level (by simp)) tighter hr' left n₁ rest).within _ _
termination_by ts.length * 20 + 3 + levels.length
decreasing_by all_goals (try simp only [List.length_cons]); omega

theorem operatorChain_precedes (level : Level) (hlevel : level.Raises) (tighter : List Level)
    (hr : ∀ level ∈ tighter, level.Raises) (left : Expr) (n : Nat) (ts : List Token) :
    Precedes endLine endLine' k us (Expr.raised k) (operatorChain endLine level tighter left n ts)
      (operatorChain endLine' level tighter (left.raised k) (n + k) (ts ++ us)) := by
  cases ts with
  | nil =>
    rw [operatorChain]
    intro ho
    obtain ⟨rfl, rfl⟩ := ho ⟨rfl, rfl⟩
    rw [List.nil_append, operatorChain]
    exact ⟨rfl, rfl, rfl⟩
  | cons operator rest =>
    rw [List.cons_append, operatorChain, operatorChain]
    split
    · refine (operators_precedes tighter hr n rest).andThen ?_ ?_
      · intro _ right n₁ _
        rw [operatorChain]
        exact ⟨rfl, rfl⟩
      · intro right n₁ rest₁ hl hl'
        rw [← hlevel]
        exact (operatorChain_precedes level hlevel tighter hr _ n₁ rest₁).within _ _
    · exact fun _ => ⟨rfl, rfl, rfl⟩
termination_by ts.length * 20 + 4 + tighter.length
decreasing_by all_goals (simp only [List.length_cons]; omega)

theorem unary_precedes (n : Nat) (ts : List Token) :
    Precedes endLine endLine' k us (Expr.raised k) (unary endLine n ts)
      (unary endLine' (n + k) (ts ++ us)) := by
  cases ts with
  | nil =>
    intro ho
    have same := ho (by simp [unary, postfixed, primary, Reading.andThen, Reading.Open])
    have alike := postfixed_precedes n [] fun _ => same
    obtain ⟨rfl, rfl⟩ := same
    rwa [List.nil_append, unary, unary]
  | cons operator rest =>
    rw [List.cons_append, unary, unary]
    split
    · exact (unary_precedes n rest).map fun e => by rw [Expr.raised]
    · exact postfixed_precedes n (operator :: rest)
termination_by ts.length * 20 + 2
decreasing_by all_goals (simp only [List.length_cons, List.length_nil]; omega)

theorem postfixed_precedes (n : Nat) (ts : List Token) :
    Precedes endLine endLine' k us (Expr.raised k) (postfixed endLine n ts)
      (postfixed endLine' (n + k) (ts ++ us)) := by
  rw [postfixed, postfixed]
  refine (primary_precedes n ts).andThen ?_ ?_
  · intro _ e n₁ _
    rw [suffixes]
    exact ⟨rfl, rfl⟩
  · intro e n₁ rest hl hl'
    exact (suffixes_precedes e n₁ rest).within _ _
termination_by ts.length * 20 + 1
decreasing_by all_goals omega

theorem suffixes_precedes (e : Expr) (n : Nat) (ts : List Token) :
    Precedes endLine endLine' k us (Expr.raised k) (suffixes endLine e n ts)
      (suffixes endLine' (e.raised k) (n + k) (ts ++ us)) := by
  cases ts with
  | nil =>
    rw [suffixes]
    intro ho
    obtain ⟨rfl, rfl⟩ := ho ⟨rfl, rfl⟩
    rw [List.nil_append, suffixes]
    exact ⟨rfl, rfl, rfl⟩
  | cons t rest =>
    rw [List.cons_append, suffixes, suffixes]
    split
    · refine (arguments_follows n rest).andThen ?_
      rintro ⟨es, paren⟩ n₁ rest₁ hl hl'
      exact (suffixes_precedes (.call e paren es) n₁ rest₁).within _ _
    · split
      · refine (expect_follows _ _ n rest).andThen ?_
        intro name n₁ rest₁ hl hl'
        exact (suffixes_precedes (.property e name) n₁ rest₁).within _ _
      · exact fun _ => ⟨rfl, rfl, rfl⟩
termination_by ts.length * 20
decreasing_by all_goals (simp only [List.length_cons] at *; omega)

theorem arguments_follows (n : Nat) (ts : List Token) :
    Follows endLine endLine' k us (fun v => (Expr.raisedAll k v.1, v.2)) (arguments endLine n ts)
      (arguments endLine' (n + k) (ts ++ us)) := by
  cases ts with
  | nil =>
    intro ho
    have same := ho (by simp [arguments, argumentList, expression_nil, maxArguments,
      Reading.andThen, Reading.Open])
    have alike := argumentList_follows 0 n [] fun _ => same
    obtain ⟨rfl, rfl⟩ := same
    rwa [List.nil_append, arguments, arguments]
  | cons t rest =>
    rw [List.cons_append, arguments, arguments]
    split
    · exact fun _ => ⟨rfl, rfl, rfl⟩
    · exact argumentList_follows 0 n (t :: rest)
termination_by ts.length * 20 + 13
decreasing_by all_goals (simp only [List.length_cons, List.length_nil]; omega)

theorem argumentList_follows (count n : Nat) (ts : List Token) :
    Follows endLine endLine' k us (fun v => (Expr.raisedAll k v.1, v.2))
      (argumentList endLine count n ts) (argumentList endLine' count (n + k) (ts ++ us)) := by
  rw [argumentList, argumentList]
  split
  · intro ho
    cases ts with
    | nil =>
      obtain ⟨rfl, rfl⟩ := ho rfl
      exact ⟨rfl, rfl⟩
    | cons => exact ⟨rfl, rfl⟩
  · refine (expression_precedes n ts).andThen (fun _ _ _ _ => rfl) ?_
    intro argument n₁ rest hl hl'
    cases rest with
    | nil =>
      intro ho
      obtain ⟨rfl, rfl⟩ := ho rfl
      exact ⟨rfl, rfl⟩
    | cons t more =>
      have hlt : more.length < ts.length := Nat.lt_of_succ_lt hl
      simp only [List.cons_append]
      split
      · refine (argumentList_follows (count + 1) n₁ more).map ?_
        rintro ⟨es, paren⟩
        rw [Expr.raisedAll]
      · split
        · exact fun _ => ⟨rfl, rfl, rfl⟩
        · exact fun _ => ⟨rfl, rfl⟩
termination_by ts.length * 20 + 12
decreasing_by all_goals omega

theorem primary_precedes (n : Nat) (ts : List Token) :
    Precedes endLine endLine' k us (Expr.raised k) (primary endLine n ts)
      (primary endLine' (n + k) (ts ++ us)) := by
  cases ts with
  | nil =>
    rw [primary]
    intro ho
    obtain ⟨rfl, rfl⟩ := ho rfl
    rw [List.nil_append, primary]
    exact ⟨rfl, rfl⟩
  | cons t rest =>
    rw [List.cons_append]
    cases hk : t.kind with
    | number value | string text =>
      rw [primary, primary]
      simp only [hk]
      exact fun _ => ⟨rfl, rfl, rfl⟩
    | symbol s =>
      by_cases hsuper : s = .superWord
      · subst hsuper
        rw [primary, primary]
        simp only [hk]
        refine (expect_follows _ _ n rest).andThen ?_
        intro dot n₁ rest₁ hl hl'
        refine (expect_follows _ _ n₁ rest₁).andThen ?_
        intro name n₂ rest₂ hl₂ hl₂' _
        exact ⟨rfl, by omega, rfl⟩
      by_cases hparen : s = .leftParen
      · subst hparen
        rw [primary, primary]
        simp only [hk]
        refine (expression_precedes n rest).andThen (fun _ _ _ _ => rfl) ?_
        intro inner n₁ rest₁ hl hl'
        refine Follows.precedes ((expect_follows _ _ n₁ rest₁).map ?_)
        intro paren
        rw [Expr.raised]
      -- The others take up one token, if any.
      by_cases hs : s ∈ primaryStart
      · rw [primary, primary]
        simp only [hk]
        intro _
        cases s <;> first
          | exact ⟨rfl, by omega, rfl⟩
          | contradiction
      · rw [primary_refused hk hs, primary_refused hk hs]
        exact fun _ => ⟨rfl, rfl⟩
termination_by ts.length * 20
decreasing_by all_goals (simp only [List.length_cons]; omega)

end

end Expressions

end ClassScript
