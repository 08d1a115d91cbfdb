import ClassScript.Proofs.Syntax.Derivations

/-! What is derived is read: the rule of an expression finds it in front of all tokens that do not
go on with it. Where the grammar repeats to the left, the rule has read a first part and goes on
behind it; so for such a phrase it is shown that the rule comes to go on with the tree of the
phrase. -/
namespace ClassScript

namespace Reading

variable {α β γ δ : Type} {m n : Nat}

/-- The reading succeeds with a value of this shape, and leaves these tokens. -/
def Finds (shape : α → γ) (tree : γ) (rest : List Token) : Reading α n → Prop
  | done value _ rest' _ => shape value = tree ∧ rest' = rest
  | failed _ _ _ => False

variable {shape : α → γ} {tree : γ} {shape' : β → δ} {tree' : δ} {rest rest' : List Token}

theorem Finds.within {r : Reading α m} (h : r.Finds shape tree rest) (hn : m ≤ n) :
    (r.within hn : Reading α n).Finds shape tree rest := by
  cases r <;> exact h

theorem Finds.andThen {r : Reading α m} (h : r.Finds shape tree rest)
    {next : (value : α) → (nextId : Nat) → (rest : List Token) → rest.length < m → Reading β n}
    {hn : m ≤ n} (hnext : ∀ value nextId hl, shape value = tree →
      (next value nextId rest hl).Finds shape' tree' rest') :
    (r.andThen next hn).Finds shape' tree' rest' := by
  cases r with
  | done value nextId rest hl =>
    obtain ⟨hs, rfl⟩ := h
    exact hnext value nextId hl hs
  | failed => exact h.elim

theorem Finds.map {r : Reading α m} (h : r.Finds shape tree rest) {f : α → β} {hn : m ≤ n}
    (hf : ∀ value, shape value = tree → shape' (f value) = tree') :
    (r.map f hn : Reading β n).Finds shape' tree' rest :=
  h.andThen fun value _ _ hs => ⟨hf value hs, rfl⟩

theorem Finds.recover {r : Reading α n} (h : r.Finds shape tree rest)
    {skip : List Token → List Token} {hs : ∀ ts, (skip ts).length ≤ ts.length} :
    (r.recover skip hs).Finds shape tree rest := by
  cases r <;> exact h

end Reading

theorem expect_finds {endLine : Nat} {s : Symbol} {t : Token} (h : t.is s) (cause : SyntaxFault)
    (n : Nat) (rest : List Token) :
    (expect endLine s cause n (t :: rest)).Finds (fun t => t) t rest := by
  simp [expect, h, Reading.Finds]

theorem Token.is_unique {t : Token} {a b : Symbol} (ha : t.is a) (hb : t.is b) : a = b := by
  have := (is_iff.mp ha).symm.trans (is_iff.mp hb)
  cases this
  rfl

theorem Token.is_other {t : Token} {a b : Symbol} (ha : t.is a) (hab : a ≠ b) : t.is b = false :=
  Bool.eq_false_iff.mpr fun hb => hab (is_unique ha hb)

namespace Grammar

/-- A token that is one of these symbols, or a literal. -/
def Among (symbols : List Symbol) (t : Token) : Prop := ∀ s, t.is s → s ∈ symbols

theorem Among.of_is {symbols : List Symbol} {s : Symbol} {t : Token} (h : t.is s)
    (hs : s ∈ symbols) : Among symbols t := fun _ h' => Token.is_unique h h' ▸ hs

theorem Among.mono {symbols more : List Symbol} {t : Token} (h : Among symbols t)
    (hs : symbols ⊆ more) : Among more t := fun s hi => hs (h s hi)

theorem Among.is_other {symbols : List Symbol} {s : Symbol} {t : Token} (h : Among symbols t)
    (hs : s ∉ symbols) : t.is s = false := Bool.eq_false_iff.mpr fun hi => hs (h s hi)

/-- The symbols with which a primary expression may begin. -/
def primaryStart : List Symbol :=
  [.falseWord, .trueWord, .nullWord, .thisWord, .superWord, .identifier, .leftParen]

/-- The symbols with which an expression may begin. -/
def expressionStart : List Symbol := .bang :: .doubleBang :: .minus :: primaryStart

theorem primaryStart_subset : primaryStart ⊆ expressionStart := by decide

/-- The symbols with which a phrase may begin. -/
def Phrase.start : Phrase → List Symbol
  | .call _ | .primary _ => primaryStart
  | _ => expressionStart

/-- The tokens are not empty, and begin with one of these symbols or with a literal. -/
def Begins (symbols : List Symbol) (ts : List Token) : Prop :=
  ∃ t more, ts = t :: more ∧ Among symbols t

theorem Begins.of_is {symbols : List Symbol} {s : Symbol} {t : Token} {ts : List Token} (h : t.is s)
    (hs : s ∈ symbols) : Begins symbols (t :: ts) := ⟨t, ts, rfl, .of_is h hs⟩

theorem Begins.append {symbols : List Symbol} {ts : List Token} (h : Begins symbols ts)
    (us : List Token) : Begins symbols (ts ++ us) := by
  obtain ⟨t, more, rfl, ht⟩ := h
  exact ⟨t, more ++ us, rfl, ht⟩

theorem Begins.mono {symbols more : List Symbol} {ts : List Token} (h : Begins symbols ts)
    (hs : symbols ⊆ more) : Begins more ts := by
  obtain ⟨t, ts, rfl, ht⟩ := h
  exact ⟨t, ts, rfl, ht.mono hs⟩

@[simp] theorem mem_start_expression {e : Expr} {s : Symbol} :
    s ∈ (Phrase.expression e).start ↔ s ∈ expressionStart := .rfl

@[simp] theorem mem_start_unary {e : Expr} {s : Symbol} :
    s ∈ (Phrase.unary e).start ↔ s ∈ expressionStart := .rfl

@[simp] theorem mem_start_primary {e : Expr} {s : Symbol} :
    s ∈ (Phrase.primary e).start ↔ s ∈ primaryStart := .rfl

theorem Phrase.Derives.begins {p : Phrase} {ts : List Token} (h : p.Derives ts) :
    Begins p.start ts := by
  induction h with
  | assign isName => exact .of_is isName (by simp; decide)
  | setProperty _ _ _ _ _ ih => exact (ih.append _).mono primaryStart_subset
  | operation _ ih | operand _ ih | factor _ ih | primary _ ih | lastArgument _ ih => exact ih
  | join _ _ _ ih | applyNone _ _ _ ih | property _ _ _ ih => exact ih.append _
  | apply _ _ _ _ _ ih | argument _ _ _ ih => exact ih.append _
  | prefixed isOperator =>
    rcases isOperator with h | h | h <;> exact .of_is h (by simp; decide)
  | call _ ih => exact ih.mono primaryStart_subset
  | number h | string h => exact ⟨_, _, rfl, fun s hs => by simp [Token.is, h] at hs⟩
  | true h | false h | null h | this h | super h | name h | group h =>
    exact .of_is h (by simp; decide)

/-- How tightly a token binds to an expression in front of it, if it goes on with one. -/
def binding? (t : Token) : Option Nat :=
  if t.is .equal then some 0
  else if t.is .leftParen || t.is .dot then some 8
  else rank? t

/-- The tokens do not go on with an expression in front of them by anything that binds as tightly as
this rank. -/
def Stops (rank : Nat) (rest : List Token) : Prop :=
  ∀ t ∈ rest.head?, ∀ b, binding? t = some b → b < rank

theorem Stops.nil (rank : Nat) : Stops rank [] := by simp [Stops]

theorem Stops.mono {rank rank' : Nat} {rest : List Token} (h : Stops rank rest)
    (hr : rank ≤ rank') : Stops rank' rest := fun t ht b hb => Nat.lt_of_lt_of_le (h t ht b hb) hr

theorem Stops.head {rank b : Nat} {t : Token} {rest : List Token} (h : Stops rank (t :: rest))
    (hb : binding? t = some b) : b < rank := h t rfl b hb

/-- The next token is no symbol that would bind as tightly. -/
theorem Stops.is_not {rank b : Nat} {s : Symbol} {t : Token} {rest : List Token}
    (h : Stops rank (t :: rest)) (hb : t.is s → binding? t = some b) (hr : rank ≤ b) :
    t.is s = false :=
  Bool.eq_false_iff.mpr fun hs => absurd (h.head (hb hs)) (Nat.not_lt_of_le hr)

theorem Stops.of_binding {rank b : Nat} {t : Token} (hb : binding? t = some b) (hr : b < rank)
    (rest : List Token) : Stops rank (t :: rest) := by
  intro t' ht b' hb'
  cases ht
  cases hb.symm.trans hb'
  exact hr

theorem binding?_of_rank {t : Token} {rank : Nat} (h : rank? t = some rank) :
    binding? t = some rank := by
  obtain ⟨s, hs⟩ := rank?_symbol h
  cases s <;> simp_all [binding?, rank?, Token.is]

theorem rank?_lt {t : Token} {rank : Nat} (h : rank? t = some rank) : rank < 8 := by
  obtain ⟨s, hs⟩ := rank?_symbol h
  cases s <;> simp_all [rank?] <;> omega

/-- The symbols in front of which an expression ends, whatever stands behind them. -/
def expressionEnd : List Symbol := [.semicolon, .rightParen, .comma]

theorem Stops.of_is {s : Symbol} {t : Token} (h : t.is s) (hs : s ∈ expressionEnd) (rank : Nat)
    (rest : List Token) : Stops rank (t :: rest) := by
  intro t' ht b hb
  cases ht
  simp only [expressionEnd, List.mem_cons, List.not_mem_nil, or_false] at hs
  have hk := Token.is_iff.mp h
  rcases hs with rfl | rfl | rfl <;> simp [binding?, rank?, Token.is, hk] at hb

theorem Ranked.length {rank : Nat} {levels : List Level} (h : Ranked rank levels) :
    rank + levels.length = 8 := by
  induction levels generalizing rank with
  | nil => exact h
  | cons level tighter ih =>
    have := ih h.2
    simp only [List.length_cons]
    omega

theorem Phrase.Derives.rank_le {rank : Nat} {e : Expr} {ts : List Token}
    (h : (Phrase.operation rank e).Derives ts) : rank ≤ 8 := by
  generalize hp : Phrase.operation rank e = phrase at h
  induction h generalizing rank e with
  | join _ _ _ ih => cases hp; exact ih rfl
  | operand _ ih => cases hp; have := ih rfl; omega
  | factor => cases hp; exact Nat.le_refl 8
  | _ => cases hp

section Expressions

variable {endLine : Nat}

theorem suffixes_stops {rest : List Token} (h : Stops 8 rest) (e : Expr) (n : Nat) :
    (suffixes endLine e n rest).Finds Expr.unnumbered e.unnumbered rest := by
  cases rest with
  | nil =>
    rw [suffixes]
    exact ⟨rfl, rfl⟩
  | cons t more =>
    have hl : t.is .leftParen = false :=
      h.is_not (fun hi => by simp [binding?, hi, Token.is_other hi]) (Nat.le_refl 8)
    have hd : t.is .dot = false :=
      h.is_not (fun hi => by simp [binding?, hi, Token.is_other hi]) (Nat.le_refl 8)
    rw [suffixes]
    simp [hl, hd, Reading.Finds]

theorem operatorChain_stops {level : Level} {rank : Nat} (hlevel : Ranks level rank)
    (tighter : List Level) {rest : List Token} (h : Stops rank rest) (e : Expr) (n : Nat) :
    (operatorChain endLine level tighter e n rest).Finds Expr.unnumbered e.unnumbered rest := by
  cases rest with
  | nil =>
    rw [operatorChain]
    exact ⟨rfl, rfl⟩
  | cons t more =>
    have ht : ¬ level.holds t := by
      intro hi
      exact absurd (h.head (binding?_of_rank ((hlevel.holds t).mp hi))) (by omega)
    rw [operatorChain]
    simp [ht, Reading.Finds]

/-- The rule of some levels comes to go on behind the operation; with no level it finds the
operation. -/
def Operates (endLine rank : Nat) (e : Expr) (ts : List Token) : List Level → Prop
  | [] => ∀ n rest, Stops rank rest →
      (operators endLine [] n (ts ++ rest)).Finds Expr.unnumbered e rest
  | level :: tighter => ∀ n rest tree rest', Stops (rank + 1) rest →
      (∀ left i, left.unnumbered = e →
        (operatorChain endLine level tighter left i rest).Finds Expr.unnumbered tree rest') →
      (operators endLine (level :: tighter) n (ts ++ rest)).Finds Expr.unnumbered tree rest'

theorem Operates.finds {rank : Nat} {e : Expr} {ts : List Token} {levels : List Level}
    (h : Operates endLine rank e ts levels) (hr : Ranked rank levels) (n : Nat) {rest : List Token}
    (hs : Stops rank rest) :
    (operators endLine levels n (ts ++ rest)).Finds Expr.unnumbered e rest := by
  cases levels with
  | nil => exact h n rest hs
  | cons level tighter =>
    refine h n rest e rest (hs.mono (by omega)) ?_
    rintro left i rfl
    exact operatorChain_stops hr.1 tighter hs left i

/-- The rule of a phrase finds it in front of tokens that do not go on with it. -/
def Found (endLine : Nat) : Phrase → List Token → Prop
  | .expression e, ts => ∀ n rest, Stops 0 rest →
      (expression endLine n (ts ++ rest)).Finds Expr.unnumbered e rest
  | .operation rank e, ts => ∀ levels, Ranked rank levels → Operates endLine rank e ts levels
  | .unary e, ts => ∀ n rest, Stops 8 rest →
      (unary endLine n (ts ++ rest)).Finds Expr.unnumbered e rest
  | .call e, ts => ∀ n rest tree rest',
      (∀ left i, left.unnumbered = e →
        (suffixes endLine left i rest).Finds Expr.unnumbered tree rest') →
      (postfixed endLine n (ts ++ rest)).Finds Expr.unnumbered tree rest'
  | .primary e, ts => ∀ n rest, (primary endLine n (ts ++ rest)).Finds Expr.unnumbered e rest
  | .arguments es, ts => ∀ count n right rest, count + es.length ≤ 255 → right.is .rightParen →
      (argumentList endLine count n (ts ++ right :: rest)).Finds
        (fun v => (Expr.unnumberedAll v.1, v.2)) (es, right) rest

theorem Found.call {e : Expr} {ts : List Token} (h : Found endLine (.call e) ts) (n : Nat)
    {rest : List Token} (hs : Stops 8 rest) :
    (postfixed endLine n (ts ++ rest)).Finds Expr.unnumbered e rest := by
  refine h n rest e rest ?_
  rintro left i rfl
  exact suffixes_stops hs left i

theorem Found.primary {e : Expr} {ts : List Token} (h : Found endLine (.primary e) ts) :
    Found endLine (.call e) ts := by
  intro n rest tree rest' hnext
  rw [postfixed]
  refine (h n rest).andThen ?_
  intro left i hl hleft
  exact (hnext left i hleft).within _

theorem Found.unary {e : Expr} {ts : List Token} (hd : (Phrase.call e).Derives ts)
    (h : Found endLine (.call e) ts) : Found endLine (.unary e) ts := by
  intro n rest hs
  obtain ⟨t, more, rfl, ht⟩ := hd.begins
  have hp := h.call n hs
  have ht : Among primaryStart t := ht
  have ho : isUnaryOperator t = false := by
    simp [isUnaryOperator, ht.is_other (s := .bang) (by decide),
      ht.is_other (s := .doubleBang) (by decide), ht.is_other (s := .minus) (by decide)]
  rw [List.cons_append] at hp ⊢
  rw [ClassScript.unary]
  simpa [ho] using hp

/-- What is found without binary operators is found at every level of them. -/
theorem Found.operators {e : Expr} {ts : List Token} (h : Found endLine (.unary e) ts)
    (levels : List Level) (rank : Nat) (hr : Ranked rank levels) (n : Nat) {rest : List Token}
    (hs : Stops rank rest) :
    (operators endLine levels n (ts ++ rest)).Finds Expr.unnumbered e rest := by
  induction levels generalizing rank with
  | nil =>
    rw [ClassScript.operators]
    exact h n rest (hs.mono (Nat.le_of_eq hr))
  | cons level tighter ih =>
    obtain ⟨hlevel, htighter⟩ := hr
    rw [ClassScript.operators]
    refine (ih (rank + 1) htighter (hs.mono (by omega))).andThen ?_
    rintro left i hl rfl
    exact (operatorChain_stops hlevel tighter hs left i).within _

theorem Found.operation {e : Expr} {ts : List Token}
    (h : Found endLine (.operation 1 e) ts) : Found endLine (.expression e) ts := by
  intro n rest hs
  rw [expression]
  refine ((h levels ranked_levels).finds ranked_levels n (hs.mono (by omega))).andThen ?_
  intro target i hl ht
  cases rest with
  | nil => exact ⟨ht, rfl⟩
  | cons t more =>
    have he : t.is .equal = false := hs.is_not (fun hi => by simp [binding?, hi]) (Nat.le_refl 0)
    simp [he, Reading.Finds, ht]

/-- Behind a target and `=`, the assigned expression makes an assignment. -/
theorem assignment_finds {target value e : Expr} {equals : Token} {ts us rest : List Token}
    {n : Nat} (ht : ∀ i rest, Stops 1 rest →
      (operators endLine levels i (ts ++ rest)).Finds Expr.unnumbered target rest)
    (he : equals.is .equal) (hv : Found endLine (.expression value) us) (hs : Stops 0 rest)
    (ha : ∀ (t v : Expr) (i : Nat), t.unnumbered = target → v.unnumbered = value →
      ∃ a j, t.assigned? v i = some (a, j) ∧ a.unnumbered = e) :
    (expression endLine n (ts ++ equals :: (us ++ rest))).Finds Expr.unnumbered e rest := by
  rw [expression]
  refine (ht n _ (.of_binding (b := 0) (by simp [binding?, he]) (by omega) _)).andThen ?_
  intro t i hl htarget
  simp only [he, if_true]
  refine (hv i rest hs).andThen ?_
  intro v j hl' hvalue
  obtain ⟨a, k, hassigned, rfl⟩ := ha t v j htarget hvalue
  simp [hassigned, Reading.Finds]

theorem primary_finds_name {name : Token} (isName : name.is .identifier) :
    Found endLine (.primary (.var 0 name)) [name] := by
  intro n rest
  rw [List.singleton_append, ClassScript.primary]
  simp [Token.is_iff.mp isName, Reading.Finds, Expr.unnumbered]

theorem primary_finds_super {t dot name : Token} (h : t.is .superWord) (isDot : dot.is .dot)
    (isName : name.is .identifier) :
    Found endLine (.primary (.superMethod 0 t name)) [t, dot, name] := by
  intro n rest
  rw [List.cons_append, ClassScript.primary]
  simp only [Token.is_iff.mp h]
  refine (expect_finds isDot _ n (name :: rest)).andThen ?_
  intro dot' i hl hdot
  refine (expect_finds isName _ i rest).andThen ?_
  rintro name' j hl' rfl
  exact ⟨rfl, rfl⟩

theorem Found.assign {name equals : Token} {value : Expr} {ts : List Token}
    (isName : name.is .identifier) (isEqual : equals.is .equal)
    (h : Found endLine (.expression value) ts) :
    Found endLine (.expression (.assign 0 name value)) (name :: equals :: ts) := by
  intro n rest hs
  -- the rule reads the target as an operation, so its own tokens have to be found as one
  have target : Found endLine (.unary (.var 0 name)) [name] :=
    .unary (.primary (.name isName)) (.primary (primary_finds_name isName))
  have hts : name :: equals :: ts ++ rest = [name] ++ equals :: (ts ++ rest) := rfl
  rw [hts]
  refine assignment_finds
    (fun i rest hs => target.operators levels 1 ranked_levels i hs) isEqual h hs ?_
  intro t v i ht hv
  cases t with
  | var id name' =>
    cases ht
    exact ⟨_, _, rfl, by simp [Expr.unnumbered, hv]⟩
  | _ => cases ht

theorem Found.property {object : Expr} {dot name : Token} {ts : List Token}
    (h : Found endLine (.call object) ts) (isDot : dot.is .dot) (isName : name.is .identifier) :
    Found endLine (.call (.property object name)) (ts ++ [dot, name]) := by
  intro n rest tree rest' hnext
  rw [List.append_assoc]
  refine h n (dot :: name :: rest) tree rest' ?_
  intro left i hleft
  rw [suffixes]
  simp only [Token.is_other isDot (b := .leftParen) (by decide), isDot, Bool.false_eq_true,
    if_false, if_true]
  refine (expect_finds isName _ i rest).andThen ?_
  rintro name' j hl rfl
  exact (hnext _ j (by simp [Expr.unnumbered, hleft])).within _

theorem Found.setProperty {object value : Expr} {dot name equals : Token} {os ts : List Token}
    (hd : (Phrase.call object).Derives os) (ho : Found endLine (.call object) os)
    (isDot : dot.is .dot) (isName : name.is .identifier) (isEqual : equals.is .equal)
    (h : Found endLine (.expression value) ts) :
    Found endLine (.expression (.setProperty object name value))
      (os ++ dot :: name :: equals :: ts) := by
  intro n rest hs
  have target : Found endLine (.unary (.property object name)) (os ++ [dot, name]) :=
    .unary (.property hd isDot isName) (ho.property isDot isName)
  have hts : os ++ dot :: name :: equals :: ts ++ rest =
      os ++ [dot, name] ++ equals :: (ts ++ rest) := by simp
  rw [hts]
  refine assignment_finds
    (fun i rest hs => target.operators levels 1 ranked_levels i hs) isEqual h hs ?_
  intro t v i ht hv
  cases t with
  | property object' name' =>
    cases ht
    exact ⟨_, _, rfl, by simp [Expr.unnumbered, hv]⟩
  | _ => cases ht

theorem Found.join {rank : Nat} {left right : Expr} {operator : Token} {ls rs : List Token}
    (hleft : Found endLine (.operation rank left) ls) (hasRank : rank? operator = some rank)
    (hright : Found endLine (.operation (rank + 1) right) rs) :
    Found endLine (.operation rank (joined left operator right)) (ls ++ operator :: rs) := by
  intro levels hr
  cases levels with
  | nil => exact absurd (rank?_lt hasRank) (Nat.not_lt_of_le (Nat.le_of_eq hr.symm))
  | cons level tighter =>
    intro n rest tree rest' hs hnext
    obtain ⟨hlevel, htighter⟩ := hr
    have ho : level.holds operator := (hlevel.holds operator).mpr hasRank
    rw [List.append_assoc]
    -- the left operand is read up to the operator, from where the rule goes on as for a longer
    -- operand
    refine hleft (level :: tighter) ⟨hlevel, htighter⟩ n (operator :: (rs ++ rest)) tree rest'
      (.of_binding (binding?_of_rank hasRank) (Nat.lt_succ_self rank) _) ?_
    intro left' i hl
    rw [operatorChain]
    simp only [ho, if_true]
    refine ((hright tighter htighter).finds htighter i hs).andThen ?_
    intro right' j hlt hr'
    refine (hnext _ j ?_).within _
    rw [hlevel.node left' operator right' ho, hl, hr']

theorem Found.operand {rank : Nat} {e : Expr} {ts : List Token}
    (hd : (Phrase.operation (rank + 1) e).Derives ts)
    (h : Found endLine (.operation (rank + 1) e) ts) : Found endLine (.operation rank e) ts := by
  intro levels hr
  cases levels with
  -- without levels the rank is the highest, and no operand ranks above it
  | nil => exact absurd hd.rank_le (Nat.not_le_of_lt (Nat.lt_succ_of_le (Nat.le_of_eq hr.symm)))
  | cons level tighter =>
    intro n rest tree rest' hs hnext
    rw [ClassScript.operators]
    refine ((h tighter hr.2).finds hr.2 n hs).andThen ?_
    intro left i hl hleft
    exact (hnext left i hleft).within _

theorem Found.factor {e : Expr} {ts : List Token} (h : Found endLine (.unary e) ts) :
    Found endLine (.operation 8 e) ts := by
  intro levels hr
  cases levels with
  | nil =>
    intro n rest hs
    rw [ClassScript.operators]
    exact h n rest hs
  | cons level tighter => exact absurd hr.length (by simp only [List.length_cons]; omega)

theorem Found.prefixed {operator : Token} {e : Expr} {ts : List Token}
    (isOperator : operator.is .bang ∨ operator.is .doubleBang ∨ operator.is .minus)
    (h : Found endLine (.unary e) ts) :
    Found endLine (.unary (.unary operator e)) (operator :: ts) := by
  intro n rest hs
  have ho : isUnaryOperator operator := by simpa [isUnaryOperator, or_assoc] using isOperator
  rw [List.cons_append, ClassScript.unary]
  simp only [ho, if_true]
  refine (h n rest hs).map ?_
  rintro e' rfl
  rw [Expr.unnumbered]

/-- Behind a callee and an opening parenthesis, the arguments and their closing parenthesis make a
call. -/
theorem Found.called {callee : Expr} {es : List Expr} {left right : Token} {ts us : List Token}
    (h : Found endLine (.call callee) ts) (isOpen : left.is .leftParen)
    (ha : ∀ n rest, (arguments endLine n (us ++ right :: rest)).Finds
      (fun v => (Expr.unnumberedAll v.1, v.2)) (es, right) rest) :
    Found endLine (.call (.call callee right es)) (ts ++ left :: (us ++ [right])) := by
  intro n rest tree rest' hnext
  have hts : ts ++ left :: (us ++ [right]) ++ rest = ts ++ left :: (us ++ right :: rest) := by simp
  rw [hts]
  refine h n _ tree rest' ?_
  intro callee' i hcallee
  rw [suffixes]
  simp only [isOpen, if_true]
  refine (ha i rest).andThen ?_
  rintro ⟨es', right'⟩ j hl hv
  cases hv
  exact (hnext _ j (by simp [Expr.unnumbered, hcallee])).within _

theorem Found.applyNone {callee : Expr} {left right : Token} {ts : List Token}
    (h : Found endLine (.call callee) ts) (isOpen : left.is .leftParen)
    (isClose : right.is .rightParen) :
    Found endLine (.call (.call callee right [])) (ts ++ [left, right]) := by
  have none : ∀ n rest, (arguments endLine n ([] ++ right :: rest)).Finds
      (fun v => (Expr.unnumberedAll v.1, v.2)) ([], right) rest := by
    intro n rest
    rw [List.nil_append, ClassScript.arguments]
    simp [isClose, Reading.Finds, Expr.unnumberedAll]
  exact h.called isOpen none

theorem Found.apply {callee : Expr} {es : List Expr} {left right : Token} {ts us : List Token}
    (h : Found endLine (.call callee) ts) (isOpen : left.is .leftParen)
    (hd : (Phrase.arguments es).Derives us) (ha : Found endLine (.arguments es) us)
    (few : es.length ≤ 255) (isClose : right.is .rightParen) :
    Found endLine (.call (.call callee right es)) (ts ++ left :: (us ++ [right])) := by
  refine h.called isOpen ?_
  intro n rest
  have found := ha 0 n right rest (by omega) isClose
  obtain ⟨t, more, rfl, ht⟩ := hd.begins
  have ht : Among expressionStart t := ht
  rw [List.cons_append] at found ⊢
  rw [ClassScript.arguments]
  simpa [ht.is_other (s := .rightParen) (by decide)] using found

theorem Found.lastArgument {e : Expr} {ts : List Token} (h : Found endLine (.expression e) ts) :
    Found endLine (.arguments [e]) ts := by
  intro count n right rest few isClose
  have hcount : ¬ maxArguments ≤ count := by
    simp only [List.length_cons, List.length_nil, maxArguments] at *
    omega
  rw [argumentList]
  simp only [hcount, if_false]
  refine (h n _ (.of_is isClose (by decide) 0 rest)).andThen ?_
  intro e' i hl he
  simp [Token.is_other isClose (b := .comma) (by decide), isClose, Reading.Finds,
    Expr.unnumberedAll, he]

theorem Found.argument {e : Expr} {es : List Expr} {comma : Token} {ts us : List Token}
    (h : Found endLine (.expression e) ts) (isComma : comma.is .comma)
    (more : Found endLine (.arguments es) us) :
    Found endLine (.arguments (e :: es)) (ts ++ comma :: us) := by
  intro count n right rest few isClose
  simp only [List.length_cons] at few
  have hcount : ¬ maxArguments ≤ count := by
    simp only [maxArguments]
    omega
  rw [List.append_assoc, argumentList]
  simp only [hcount, if_false]
  refine (h n _ (.of_is isComma (by decide) 0 _)).andThen ?_
  intro e' i hl he
  simp only [List.cons_append, isComma, if_true]
  refine (more (count + 1) i right rest (by omega) isClose).map ?_
  rintro ⟨es', right'⟩ hv
  cases hv
  simp [Expr.unnumberedAll, he]

theorem Found.group {left right : Token} {e : Expr} {ts : List Token} (isOpen : left.is .leftParen)
    (h : Found endLine (.expression e) ts) (isClose : right.is .rightParen) :
    Found endLine (.primary (.group e)) (left :: (ts ++ [right])) := by
  intro n rest
  rw [List.cons_append, List.append_assoc, ClassScript.primary]
  simp only [Token.is_iff.mp isOpen]
  refine (h n _ (.of_is isClose (by decide) 0 rest)).andThen ?_
  rintro e' i hl rfl
  refine (expect_finds isClose _ i rest).map ?_
  rintro right' -
  rw [Expr.unnumbered]

theorem Phrase.Derives.found {p : Phrase} {ts : List Token} (h : p.Derives ts) :
    Found endLine p ts := by
  induction h with
  | assign isName isEqual _ ih => exact ih.assign isName isEqual
  | setProperty hd isDot isName isEqual _ ihObject ih =>
    exact ihObject.setProperty hd isDot isName isEqual ih
  | operation _ ih => exact ih.operation
  | join _ hasRank _ ihLeft ihRight => exact ihLeft.join hasRank ihRight
  | operand hd ih => exact ih.operand hd
  | factor _ ih => exact ih.factor
  | prefixed isOperator _ ih => exact ih.prefixed isOperator
  | call hd ih => exact ih.unary hd
  | primary _ ih => exact ih.primary
  | applyNone _ isOpen isClose ih => exact ih.applyNone isOpen isClose
  | apply _ isOpen hd few isClose ih ihArguments =>
    exact ih.apply isOpen hd ihArguments few isClose
  | property _ isDot isName ih => exact ih.property isDot isName
  | lastArgument _ ih => exact ih.lastArgument
  | argument _ isComma _ ih ihMore => exact ih.argument isComma ihMore
  | group isOpen _ isClose ih => exact ih.group isOpen isClose
  | name isName => exact primary_finds_name isName
  | super h isDot isName => exact primary_finds_super h isDot isName
  | number h | string h =>
    intro n rest
    rw [List.singleton_append, ClassScript.primary]
    simp [h, Reading.Finds, Expr.unnumbered]
  | true h | false h | null h | this h =>
    intro n rest
    rw [List.singleton_append, ClassScript.primary]
    simp [Token.is_iff.mp h, Reading.Finds, Expr.unnumbered]

end Expressions

end Grammar

end ClassScript
