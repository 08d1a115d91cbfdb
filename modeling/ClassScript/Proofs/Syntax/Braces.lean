import ClassScript.Proofs.Syntax.Exactness
import Mathlib.Data.List.Infix

/-! Braces in what the grammar derives. They are balanced: as many close as open, and from no place
on do more of them open than close. So what is left of a block behind some place in it is no
program. -/
namespace ClassScript

/-- How many braces the token opens. -/
def Token.braces (t : Token) : Int :=
  if t.is .leftBrace then 1 else if t.is .rightBrace then -1 else 0

/-- How many more braces open than close. -/
def unclosed : List Token → Int
  | [] => 0
  | t :: ts => t.braces + unclosed ts

@[simp] theorem unclosed_nil : unclosed [] = 0 := rfl

@[simp] theorem unclosed_cons (t : Token) (ts : List Token) :
    unclosed (t :: ts) = t.braces + unclosed ts := rfl

@[simp] theorem unclosed_append (ts us : List Token) :
    unclosed (ts ++ us) = unclosed ts + unclosed us := by
  induction ts with
  | nil => simp
  | cons t ts ih => simp [ih, Int.add_assoc]

namespace Token

theorem braces_left {t : Token} (h : t.is .leftBrace) : t.braces = 1 := by
  simp [braces, h]

theorem braces_right {t : Token} (h : t.is .rightBrace) : t.braces = -1 := by
  simp [braces, h, is_other h]

theorem braces_of_is {t : Token} {s : Symbol} (h : t.is s)
    (hs : s ∉ [Symbol.leftBrace, .rightBrace]) : t.braces = 0 := by
  simp only [List.mem_cons, List.not_mem_nil, or_false, not_or] at hs
  simp [braces, is_other h hs.1, is_other h hs.2]

theorem braces_of_kind {t : Token} (h : ∀ s, t.kind ≠ .symbol s) : t.braces = 0 := by
  have not : ∀ s, t.is s = false := fun s => Bool.eq_false_iff.mpr fun hs => h s (is_iff.mp hs)
  simp [braces, not]

end Token

theorem unclosed_closers {ts : List Token} (h : ∀ t ∈ ts, t.is .rightBrace) :
    unclosed ts = -(ts.length : Int) := by
  induction ts with
  | nil => rfl
  | cons t ts ih =>
    rw [unclosed_cons, Token.braces_right (h t (by simp)), ih fun u hu => h u (by simp [hu]),
      List.length_cons]
    omega

/-- A part at the end of two lists lies in the second one or begins in the first. -/
theorem suffix_append_cases {ts us vs : List Token} (h : vs <:+ ts ++ us) :
    vs <:+ us ∨ ∃ ws, ws <:+ ts ∧ vs = ws ++ us := by
  obtain ⟨front, h⟩ := h
  obtain ⟨ws, rfl, rfl⟩ | ⟨ws, rfl, rfl⟩ := List.append_eq_append_iff.mp h
  · exact .inr ⟨ws, List.suffix_append _ _, rfl⟩
  · exact .inl (List.suffix_append _ _)

/-- As many braces close as open, and what stands behind some place opens no more than it closes. -/
structure Balanced (ts : List Token) : Prop where
  closed : unclosed ts = 0
  behind : ∀ us, us <:+ ts → unclosed us ≤ 0

namespace Balanced

variable {t : Token} {ts us : List Token}

theorem nil : Balanced [] := by
  refine ⟨rfl, fun us h => ?_⟩
  rw [List.suffix_nil.mp h]
  exact Int.le_refl _

theorem append (h : Balanced ts) (h' : Balanced us) : Balanced (ts ++ us) := by
  refine ⟨by rw [unclosed_append, h.closed, h'.closed, Int.add_zero], fun vs hv => ?_⟩
  obtain hv | ⟨ws, hw, rfl⟩ := suffix_append_cases hv
  · exact h'.behind vs hv
  · rw [unclosed_append, h'.closed, Int.add_zero]
    exact h.behind ws hw

theorem single (ht : t.braces = 0) : Balanced [t] := by
  refine ⟨by simp [ht], fun us h => ?_⟩
  obtain rfl | h := List.suffix_cons_iff.mp h
  · simp [ht]
  · rw [List.suffix_nil.mp h]
    exact Int.le_refl _

theorem cons (ht : t.braces = 0) (h : Balanced ts) : Balanced (t :: ts) := (single ht).append h

/-- A pair of tokens around balanced ones, which are no braces. -/
theorem between {left right : Token} (hl : left.braces = 0) (h : Balanced ts)
    (hr : right.braces = 0) : Balanced (left :: (ts ++ [right])) := (h.append (single hr)).cons hl

theorem braced {left right : Token} (hl : left.is .leftBrace) (h : Balanced ts)
    (hr : right.is .rightBrace) : Balanced (left :: (ts ++ [right])) := by
  have right_braces := Token.braces_right hr
  refine ⟨by simp [Token.braces_left hl, right_braces, h.closed], fun us hs => ?_⟩
  obtain rfl | hs := List.suffix_cons_iff.mp hs
  · simp [Token.braces_left hl, right_braces, h.closed]
  · obtain rfl | ⟨vs, rfl, hv⟩ := List.suffix_concat_iff.mp hs
    · exact Int.le_refl _
    · have := h.behind vs hv
      simp only [unclosed_append, unclosed_cons, unclosed_nil, right_braces]
      omega

end Balanced

namespace Grammar

open Token (braces_of_is braces_of_kind)

theorem rank?_braces {t : Token} {rank : Nat} (h : rank? t = some rank) : t.braces = 0 := by
  obtain ⟨s, hs⟩ := rank?_symbol h
  refine braces_of_is (Token.is_iff.mpr hs) fun hm => ?_
  simp only [List.mem_cons, List.not_mem_nil, or_false] at hm
  obtain rfl | rfl := hm <;> simp [rank?, hs] at h

/-- There is no brace in an expression. -/
theorem Phrase.Derives.balanced {p : Phrase} {ts : List Token} (h : p.Derives ts) :
    Balanced ts := by
  induction h with
  | operation _ ih | operand _ ih | factor _ ih | call _ ih | primary _ ih | lastArgument _ ih =>
    exact ih
  | assign isName isEqual _ ih =>
    exact (ih.cons (braces_of_is isEqual (by decide))).cons (braces_of_is isName (by decide))
  | setProperty _ isDot isName isEqual _ target ih =>
    exact target.append (((ih.cons (braces_of_is isEqual (by decide))).cons
      (braces_of_is isName (by decide))).cons (braces_of_is isDot (by decide)))
  | join _ hasRank _ first second => exact first.append (second.cons (rank?_braces hasRank))
  | prefixed isOperator _ ih =>
    refine ih.cons ?_
    obtain h | h | h := isOperator <;> exact braces_of_is h (by decide)
  | applyNone _ isOpen isClose ih =>
    exact ih.append (Balanced.nil.between (braces_of_is isOpen (by decide))
      (braces_of_is isClose (by decide)))
  | apply _ isOpen _ _ isClose applied given =>
    exact applied.append (given.between (braces_of_is isOpen (by decide))
      (braces_of_is isClose (by decide)))
  | property _ isDot isName ih =>
    exact ih.append (Balanced.nil.between (braces_of_is isDot (by decide))
      (braces_of_is isName (by decide)))
  | argument _ isComma _ first more =>
    exact first.append (more.cons (braces_of_is isComma (by decide)))
  | number h | string h => exact .single (braces_of_kind (by simp [h]))
  | true h | false h | null h | this h | name h => exact .single (braces_of_is h (by decide))
  | super h isDot isName =>
    exact (Balanced.single (braces_of_is isDot (by decide))).between (braces_of_is h (by decide))
      (braces_of_is isName (by decide))
  | group isOpen _ isClose ih =>
    exact ih.between (braces_of_is isOpen (by decide)) (braces_of_is isClose (by decide))

section Parts

variable {ts : List Token}

theorem Perhaps.balanced {e : Option Expr} (h : Perhaps e ts) : Balanced ts := by
  cases h with
  | none => exact .nil
  | some h => exact h.balanced

theorem Initializer.balanced {e : Option Expr} (h : Initializer e ts) : Balanced ts := by
  cases h with
  | none => exact .nil
  | some isEqual h => exact h.balanced.cons (braces_of_is isEqual (by decide))

theorem LetDecl.balanced {s : Stmt} (h : LetDecl s ts) : Balanced ts := by
  cases h with
  | mk isLet isName value ends =>
    exact (value.balanced.between (braces_of_is isName (by decide))
      (braces_of_is ends (by decide))).cons (braces_of_is isLet (by decide))

theorem ExprStmt.balanced {s : Stmt} (h : ExprStmt s ts) : Balanced ts := by
  cases h with
  | mk h ends => exact h.balanced.append (.single (braces_of_is ends (by decide)))

theorem ForInitializer.balanced {s : Option Stmt} (h : ForInitializer s ts) : Balanced ts := by
  cases h with
  | none ends => exact .single (braces_of_is ends (by decide))
  | letDecl h => exact h.balanced
  | exprStmt h => exact h.balanced

theorem ForClauses.balanced {clauses : Option Stmt × Option Expr × Option Expr}
    (h : ForClauses clauses ts) : Balanced ts := by
  cases h with
  | mk isOpen first second isSemicolon third isClose =>
    have behind := third.balanced.between (braces_of_is isSemicolon (by decide))
      (braces_of_is isClose (by decide))
    exact (first.balanced.append (second.balanced.append behind)).cons
      (braces_of_is isOpen (by decide))

theorem Condition.balanced {e : Expr} (h : Condition e ts) : Balanced ts := by
  cases h with
  | mk isOpen h isClose =>
    exact h.balanced.between (braces_of_is isOpen (by decide)) (braces_of_is isClose (by decide))

theorem Heritage.balanced {e : Option Expr} (h : Heritage e ts) : Balanced ts := by
  cases h with
  | none => exact .nil
  | some isExtends isName =>
    exact Balanced.nil.between (braces_of_is isExtends (by decide))
      (braces_of_is isName (by decide))

theorem Parameters.balanced {names : List Token} (h : Parameters names ts) : Balanced ts := by
  induction h with
  | last isName => exact .single (braces_of_is isName (by decide))
  | more isName isComma _ ih =>
    exact (ih.cons (braces_of_is isComma (by decide))).cons (braces_of_is isName (by decide))

theorem ParametersOrNone.balanced {names : List Token} (h : ParametersOrNone names ts) :
    Balanced ts := by
  cases h with
  | none => exact .nil
  | some h => exact h.balanced

end Parts

/-- The braces of a sentence are those of its blocks. -/
theorem Sentence.Derives.balanced {p : Sentence} {ts : List Token} (h : p.Derives ts) :
    Balanced ts := by
  induction h with
  | noDeclarations | noMembers => exact .nil
  | statement _ ih => exact ih
  | letDecl h => exact h.balanced
  | exprStmt h => exact h.balanced
  | classDecl isClass isName heritage isOpen _ isClose ih =>
    exact ((heritage.balanced.append (ih.braced isOpen isClose)).cons
      (braces_of_is isName (by decide))).cons (braces_of_is isClass (by decide))
  | funDecl isFunction _ ih => exact ih.cons (braces_of_is isFunction (by decide))
  | constDecl isConst isName isEqual value ends =>
    have behind := value.balanced.between (braces_of_is isEqual (by decide))
      (braces_of_is ends (by decide))
    exact (behind.cons (braces_of_is isName (by decide))).cons (braces_of_is isConst (by decide))
  | printStmt isPrint h ends =>
    exact h.balanced.between (braces_of_is isPrint (by decide)) (braces_of_is ends (by decide))
  | returnStmt isReturn h ends =>
    exact h.balanced.between (braces_of_is isReturn (by decide)) (braces_of_is ends (by decide))
  | forStmt isFor clauses _ ih =>
    exact (clauses.balanced.append ih).cons (braces_of_is isFor (by decide))
  | whileStmt isWhile condition _ ih =>
    exact (condition.balanced.append ih).cons (braces_of_is isWhile (by decide))
  | ifStmt isIf condition _ ih =>
    exact (condition.balanced.append ih).cons (braces_of_is isIf (by decide))
  | ifElse isIf condition _ isElse _ first second =>
    have branches := first.append (second.cons (braces_of_is isElse (by decide)))
    exact (condition.balanced.append branches).cons (braces_of_is isIf (by decide))
  | block isOpen _ isClose ih => exact ih.braced isOpen isClose
  | declarations _ _ first more => exact first.append more
  | method _ _ first more => exact first.append more
  | staticMethod isStatic _ _ first more =>
    exact (first.append more).cons (braces_of_is isStatic (by decide))
  | function isName isOpen parameters _ isClose isOpenBrace _ isCloseBrace ih =>
    have behind := (ih.braced isOpenBrace isCloseBrace).cons (braces_of_is isClose (by decide))
    exact ((parameters.balanced.append behind).cons (braces_of_is isOpen (by decide))).cons
      (braces_of_is isName (by decide))

end Grammar

/-- Behind no place in a program and braces that close is there a program, but for the end
itself. -/
theorem Listing.read_closers {endLine n : Nat} (endLine' n' : Nat) {ts closers us : List Token}
    (h : (read endLine n ts).errors = []) (hc : ∀ t ∈ closers, t.is .rightBrace)
    (hne : closers ≠ []) (hs : us <:+ ts ++ closers) :
    (read endLine' n' us).errors = [] ↔ us = [] := by
  have outer : Balanced ts := (Grammar.read_derives n ts h).balanced
  constructor
  · intro hu
    have inner := (Grammar.read_derives n' us hu).balanced.closed
    obtain hv | ⟨vs, hv, rfl⟩ := suffix_append_cases hs
    · rw [unclosed_closers fun t ht => hc t (hv.subset ht)] at inner
      exact List.length_eq_zero_iff.mp (by omega)
    · have front := outer.behind vs hv
      rw [unclosed_append, unclosed_closers hc] at inner
      have := List.length_pos_iff.mpr hne
      omega
  · rintro rfl
    simp [read]

end ClassScript
