import ClassScript.Syntax.OfTokens
import ClassScript.Syntax.References

/-! The identities of a tree that was read: they are given out in the order in which nodes are
completed, so those of an expression increase, and no two nodes of a program share one. -/
namespace ClassScript

/-- The identities of references, in their order. -/
def identities (references : List Reference) : List Nat := references.map Reference.id

@[simp] theorem identities_append (xs ys : List Reference) :
    identities (xs ++ ys) = identities xs ++ identities ys := List.map_append

@[simp] theorem identities_nil : identities [] = [] := rfl

/-- Identities in increasing order, from `n` on and before `next`. -/
structure Ascending (n next : Nat) (ids : List Nat) : Prop where
  le : n ≤ next
  sorted : ids.Pairwise (· < ·)
  bounds : ∀ i ∈ ids, n ≤ i ∧ i < next

namespace Ascending

variable {a b c : Nat} {xs ys : List Nat}

theorem nil (a : Nat) : Ascending a a [] := ⟨Nat.le_refl a, .nil, by simp⟩

theorem single (a : Nat) : Ascending a (a + 1) [a] := ⟨by omega, by simp, by simp⟩

theorem append (hx : Ascending a b xs) (hy : Ascending b c ys) : Ascending a c (xs ++ ys) := by
  refine ⟨Nat.le_trans hx.le hy.le, ?_, ?_⟩
  · refine List.pairwise_append.mpr ⟨hx.sorted, hy.sorted, ?_⟩
    intro i hi j hj
    exact Nat.lt_of_lt_of_le (hx.bounds i hi).2 (hy.bounds j hj).1
  · intro i hi
    have hab := hx.le
    have hbc := hy.le
    rcases List.mem_append.mp hi with hi | hi
    · have := hx.bounds i hi
      omega
    · have := hy.bounds i hi
      omega

theorem lower (h : Ascending b c xs) (hab : a ≤ b) : Ascending a c xs := by
  refine ⟨Nat.le_trans hab h.le, h.sorted, ?_⟩
  intro i hi
  have := h.bounds i hi
  omega

end Ascending

/-- Distinct identities, from `n` on and before `next`. -/
structure Numbered (n next : Nat) (ids : List Nat) : Prop where
  le : n ≤ next
  distinct : ids.Nodup
  bounds : ∀ i ∈ ids, n ≤ i ∧ i < next

theorem Ascending.numbered {n next : Nat} {ids : List Nat} (h : Ascending n next ids) :
    Numbered n next ids := ⟨h.le, h.sorted.imp Nat.ne_of_lt, h.bounds⟩

namespace Numbered

variable {a b c : Nat} {xs ys : List Nat}

theorem nil (a : Nat) : Numbered a a [] := (Ascending.nil a).numbered

theorem append (hx : Numbered a b xs) (hy : Numbered b c ys) : Numbered a c (xs ++ ys) := by
  refine ⟨Nat.le_trans hx.le hy.le, ?_, ?_⟩
  · refine List.nodup_append.mpr ⟨hx.distinct, hy.distinct, ?_⟩
    intro i hi j hj
    exact Nat.ne_of_lt (Nat.lt_of_lt_of_le (hx.bounds i hi).2 (hy.bounds j hj).1)
  · intro i hi
    have hab := hx.le
    have hbc := hy.le
    rcases List.mem_append.mp hi with hi | hi
    · have := hx.bounds i hi
      omega
    · have := hy.bounds i hi
      omega

theorem perm (h : Numbered a b xs) (hp : xs.Perm ys) : Numbered a b ys :=
  ⟨h.le, hp.nodup_iff.mp h.distinct, fun i hi => h.bounds i (hp.mem_iff.mpr hi)⟩

end Numbered

namespace Reading

variable {α β : Type} {m n : Nat}

/-- What a reading gives, if it succeeds. -/
def Gives (Q : α → Nat → List Token → Prop) : Reading α n → Prop
  | done value nextId rest _ => Q value nextId rest
  | failed _ _ _ => True

variable {P : α → Nat → List Token → Prop} {Q : β → Nat → List Token → Prop}

theorem Gives.within {r : Reading α m} (h : r.Gives P) (hn : m ≤ n) :
    (r.within hn : Reading α n).Gives P := by
  cases r <;> exact h

theorem Gives.andThen {r : Reading α m} (h : r.Gives P)
    {next : (value : α) → (nextId : Nat) → (rest : List Token) → rest.length < m → Reading β n}
    {hn : m ≤ n} (hnext : ∀ value nextId rest hl, P value nextId rest →
      (next value nextId rest hl).Gives Q) : (r.andThen next hn).Gives Q := by
  cases r with
  | done value nextId rest hl => exact hnext value nextId rest hl h
  | failed => trivial

theorem Gives.map {r : Reading α m} (h : r.Gives P) {f : α → β} {hn : m ≤ n}
    (hf : ∀ value nextId rest, P value nextId rest → Q (f value) nextId rest) :
    (r.map f hn : Reading β n).Gives Q := h.andThen fun value nextId rest _ => hf value nextId rest

theorem Gives.imp {P' : α → Nat → List Token → Prop} {r : Reading α n} (h : r.Gives P)
    (hp : ∀ value nextId rest, P value nextId rest → P' value nextId rest) : r.Gives P' := by
  cases r with
  | done value nextId rest hl => exact hp value nextId rest h
  | failed => trivial

theorem Gives.recover {r : Reading α n} (h : r.Gives P) {skip : List Token → List Token}
    {hs : ∀ ts, (skip ts).length ≤ ts.length} : (r.recover skip hs).Gives P := by
  cases r <;> exact h

end Reading

theorem expect_gives {endLine nextId : Nat} {s : Symbol} {cause : SyntaxFault} {ts : List Token} :
    (expect endLine s cause nextId ts).Gives fun t next rest =>
      ts = t :: rest ∧ t.is s ∧ next = nextId := by
  unfold expect
  split
  · split
    case isTrue hs => exact ⟨rfl, hs, rfl⟩
    case isFalse => trivial
  · trivial

/-- The node of a level has the references of its operands, in their order. -/
def Level.Joins (level : Level) : Prop :=
  ∀ left operator right, (level.node left operator right).references =
    left.references ++ right.references

theorem levels_joins : ∀ level ∈ levels, level.Joins := by
  intro level hl left operator right
  simp only [levels, List.mem_cons, List.not_mem_nil, or_false] at hl
  rcases hl with rfl | rfl | rfl | rfl | rfl | rfl | rfl <;> simp [Expr.references]

theorem assigned?_references {target value e : Expr} {a b next n : Nat}
    (h : target.assigned? value next = some (e, n))
    (ht : Ascending a b (identities target.references))
    (hv : Ascending b next (identities value.references)) :
    Ascending a n (identities e.references) := by
  unfold Expr.assigned? at h
  split at h
  · cases h
    simp only [Expr.references, identities_append]
    exact (hv.lower ht.le).append (.single next)
  · cases h
    simp only [Expr.references, identities_append]
    exact ht.append hv
  · cases h

section Expressions

variable {endLine : Nat}

/-- A reading of an expression uses up a front part of the tokens, and the identities of the
expression are those given out meanwhile. -/
abbrev Reads (ts : List Token) (n : Nat) (e : Expr) (next : Nat) (rest : List Token) : Prop :=
  rest <:+ ts ∧ Ascending n next (identities e.references)

/-- The same for expressions in a row, which end with a token of their own. -/
abbrev ReadsAll (ts : List Token) (n : Nat) (es : List Expr × Token) (next : Nat)
    (rest : List Token) : Prop :=
  rest <:+ ts ∧ Ascending n next (identities (Expr.referencesAll es.1))

theorem suffix_of_cons {t : Token} {rest more ts : List Token} (h : t :: more <:+ ts)
    (hr : rest <:+ more) : rest <:+ ts := hr.trans ((List.suffix_cons t more).trans h)

mutual

theorem expression_reads (n : Nat) (ts : List Token) :
    (expression endLine n ts).Gives (Reads ts n) := by
  rw [expression]
  refine (operators_reads levels levels_joins n ts).andThen ?_
  rintro target n₁ rest hl ⟨hs, ha⟩
  cases rest with
  | nil => exact ⟨hs, ha⟩
  | cons equals more =>
    have hlt : more.length < ts.length := Nat.lt_of_succ_lt hl
    dsimp only
    split
    · refine (expression_reads n₁ more).andThen ?_
      rintro value n₂ rest' - ⟨hs', ha'⟩
      split
      · exact ⟨suffix_of_cons hs hs', assigned?_references ‹_› ha ha'⟩
      · trivial
    · exact ⟨hs, ha⟩
termination_by ts.length * 20 + 11
decreasing_by all_goals (try simp only [levels, List.length_cons, List.length_nil]); omega

theorem operators_reads (levels : List Level) (hj : ∀ level ∈ levels, level.Joins) (n : Nat)
    (ts : List Token) : (operators endLine levels n ts).Gives (Reads ts n) := by
  match levels, hj with
  | [], _ =>
    rw [operators]
    exact unary_reads n ts
  | level :: tighter, hj =>
    rw [operators]
    refine (operators_reads tighter (fun l hl => hj l (by simp [hl])) n ts).andThen ?_
    rintro left n₁ rest hl ⟨hs, ha⟩
    refine ((operatorChain_reads level (hj level (by simp)) tighter
      (fun l hl => hj l (by simp [hl])) left n₁ rest ha).within _).imp ?_
    rintro e n₂ rest' ⟨hs', ha'⟩
    exact ⟨hs'.trans hs, ha'⟩
termination_by ts.length * 20 + 3 + levels.length
decreasing_by all_goals (try simp only [List.length_cons, List.length_nil]); omega

theorem operatorChain_reads (level : Level) (hl : level.Joins) (tighter : List Level)
    (hj : ∀ level ∈ tighter, level.Joins) (left : Expr) {a : Nat} (n : Nat) (ts : List Token)
    (ha : Ascending a n (identities left.references)) :
    (operatorChain endLine level tighter left n ts).Gives (Reads ts a) := by
  cases ts with
  | nil =>
    rw [operatorChain]
    exact ⟨List.suffix_refl _, ha⟩
  | cons operator rest =>
    rw [operatorChain]
    split
    · refine (operators_reads tighter hj n rest).andThen ?_
      rintro right n₁ rest₁ hlt ⟨hs, hr⟩
      have hjoin : Ascending a n₁ (identities (level.node left operator right).references) := by
        rw [hl, identities_append]
        exact ha.append hr
      refine ((operatorChain_reads level hl tighter hj _ n₁ rest₁ hjoin).within _).imp ?_
      rintro e n₂ rest₂ ⟨hs', he⟩
      exact ⟨suffix_of_cons (List.suffix_refl _) (hs'.trans hs), he⟩
    · exact ⟨List.suffix_refl _, ha⟩
termination_by ts.length * 20 + 4 + tighter.length
decreasing_by all_goals (simp only [List.length_cons]; omega)

theorem unary_reads (n : Nat) (ts : List Token) : (unary endLine n ts).Gives (Reads ts n) := by
  cases ts with
  | nil =>
    rw [unary]
    exact postfixed_reads n []
  | cons operator rest =>
    rw [unary]
    split
    · refine (unary_reads n rest).map ?_
      rintro e n₁ rest₁ ⟨hs, ha⟩
      exact ⟨suffix_of_cons (List.suffix_refl _) hs, ha⟩
    · exact postfixed_reads n (operator :: rest)
termination_by ts.length * 20 + 2
decreasing_by all_goals (simp only [List.length_cons, List.length_nil]; omega)

theorem postfixed_reads (n : Nat) (ts : List Token) :
    (postfixed endLine n ts).Gives (Reads ts n) := by
  rw [postfixed]
  refine (primary_reads n ts).andThen ?_
  rintro e n₁ rest hl ⟨hs, ha⟩
  refine ((suffixes_reads e n₁ rest ha).within _).imp ?_
  rintro e' n₂ rest' ⟨hs', ha'⟩
  exact ⟨hs'.trans hs, ha'⟩
termination_by ts.length * 20 + 1
decreasing_by all_goals omega

theorem suffixes_reads (e : Expr) {a : Nat} (n : Nat) (ts : List Token)
    (ha : Ascending a n (identities e.references)) :
    (suffixes endLine e n ts).Gives (Reads ts a) := by
  cases ts with
  | nil =>
    rw [suffixes]
    exact ⟨List.suffix_refl _, ha⟩
  | cons t rest =>
    rw [suffixes]
    split
    · refine (arguments_reads n rest).andThen ?_
      rintro ⟨es, paren⟩ n₁ rest₁ hlt ⟨hs, he⟩
      have hcall : Ascending a n₁ (identities (Expr.call e paren es).references) := by
        rw [Expr.references, identities_append]
        exact ha.append he
      refine ((suffixes_reads _ n₁ rest₁ hcall).within _).imp ?_
      rintro e' n₂ rest₂ ⟨hs', ha'⟩
      exact ⟨suffix_of_cons (List.suffix_refl _) (hs'.trans hs), ha'⟩
    · split
      · refine expect_gives.andThen ?_
        rintro name n₁ rest₁ hlt ⟨rfl, -, rfl⟩
        have hprop : Ascending a n₁ (identities (Expr.property e name).references) := by
          rw [Expr.references]
          exact ha
        refine ((suffixes_reads _ n₁ rest₁ hprop).within _).imp ?_
        rintro e' n₂ rest₂ ⟨hs', ha'⟩
        exact ⟨suffix_of_cons (List.suffix_refl _) (hs'.trans (List.suffix_cons _ _)), ha'⟩
      · exact ⟨List.suffix_refl _, ha⟩
termination_by ts.length * 20
decreasing_by all_goals (simp only [List.length_cons] at *; omega)

theorem arguments_reads (n : Nat) (ts : List Token) :
    (arguments endLine n ts).Gives (ReadsAll ts n) := by
  cases ts with
  | nil =>
    rw [arguments]
    exact argumentList_reads 0 n []
  | cons t rest =>
    rw [arguments]
    split
    · exact ⟨List.suffix_cons _ _, .nil n⟩
    · exact argumentList_reads 0 n (t :: rest)
termination_by ts.length * 20 + 13
decreasing_by all_goals (simp only [List.length_cons, List.length_nil]; omega)

theorem argumentList_reads (count n : Nat) (ts : List Token) :
    (argumentList endLine count n ts).Gives (ReadsAll ts n) := by
  rw [argumentList]
  split
  · trivial
  · refine (expression_reads n ts).andThen ?_
    rintro argument n₁ rest hl ⟨hs, ha⟩
    cases rest with
    | nil => trivial
    | cons t more =>
      have hlt : more.length < ts.length := Nat.lt_of_succ_lt hl
      dsimp only
      split
      · refine (argumentList_reads (count + 1) n₁ more).map ?_
        rintro ⟨es, paren⟩ n₂ rest₂ ⟨hs', he⟩
        refine ⟨suffix_of_cons hs hs', ?_⟩
        rw [Expr.referencesAll, identities_append]
        exact ha.append he
      · split
        · refine ⟨suffix_of_cons hs (List.suffix_refl _), ?_⟩
          simpa [Expr.referencesAll] using ha
        · trivial
termination_by ts.length * 20 + 12
decreasing_by all_goals omega

theorem primary_reads (n : Nat) (ts : List Token) :
    (primary endLine n ts).Gives (Reads ts n) := by
  cases ts with
  | nil =>
    rw [primary]
    trivial
  | cons t rest =>
    have literal : ∀ value, Reads (t :: rest) n (.literal value) n rest := by
      intro value
      refine ⟨List.suffix_cons _ _, ?_⟩
      rw [Expr.references]
      exact .nil n
    rw [primary]
    split
    case h_1 => exact literal _
    case h_2 => exact literal _
    case h_3 => exact literal _
    case h_4 => exact literal _
    case h_5 => exact literal _
    case h_6 =>
      refine ⟨List.suffix_cons _ _, ?_⟩
      rw [Expr.references]
      exact .single n
    case h_7 =>
      refine expect_gives.andThen ?_
      rintro dot n₁ rest₁ hlt ⟨rfl, -, rfl⟩
      refine expect_gives.andThen ?_
      rintro name n₂ rest₂ hlt' ⟨rfl, -, rfl⟩
      refine ⟨suffix_of_cons (List.suffix_cons _ _) (List.suffix_cons _ _), ?_⟩
      rw [Expr.references]
      exact .single n₂
    case h_8 =>
      refine ⟨List.suffix_cons _ _, ?_⟩
      rw [Expr.references]
      exact .single n
    case h_9 =>
      refine (expression_reads n rest).andThen ?_
      rintro inner n₁ rest₁ hlt ⟨hs, ha⟩
      refine expect_gives.map ?_
      rintro close n₂ rest₂ ⟨rfl, -, rfl⟩
      refine ⟨suffix_of_cons (List.suffix_refl _) (suffix_of_cons hs (List.suffix_refl _)), ?_⟩
      rw [Expr.references]
      exact ha
    case h_10 => trivial
termination_by ts.length * 20
decreasing_by all_goals (simp only [List.length_cons]; omega)

end

end Expressions

end ClassScript
