import ClassScript.CommandLine
import ClassScript.Proofs.Lexical.Respaced
import ClassScript.Proofs.Lexical.Spelling
import ClassScript.Proofs.Number.Readback
import ClassScript.Proofs.Number.Signs

/-! The two texts of a number literal: that of its token and that of the syntax tree. They are the
same but for whole numbers from a bound on, of which the token shows the shortest digits and no
place. -/
namespace ClassScript

namespace Number

variable {x : Float} {e : Exact} {d : Decimal} {tie : Tie}

theorem Decimal.exponent_trimmed (h : 0 ≤ d.exponent) : 0 ≤ d.trimmed.exponent := by
  induction d using Decimal.trimmed.induct with
  | case1 d zero => rw [trimmed, dif_pos zero]
  | case2 d nonzero multiple ih =>
    rw [trimmed, dif_neg nonzero, if_pos multiple]
    exact ih (Int.add_nonneg h Int.one_nonneg)
  | case3 d nonzero last => rwa [trimmed, dif_neg nonzero, if_neg last]

/-- A decimal without places is written in digits alone. -/
theorem isDigit_of_mem_positional (h : 0 ≤ d.exponent) : ∀ c ∈ d.positional.toList, c.isDigit := by
  rw [positional_whole h]
  exact fun c hc => (List.mem_append.mp hc).elim isDigit_of_mem_digits isDigit_of_mem_zeros

namespace Exact

theorem exponent_onGrid? {step : Nat} (h : e.onGrid? tie step = some d) :
    d.exponent = e.scale + step := by
  have picked {coefficient : Nat} (hd : some (⟨coefficient, e.scale + step⟩ : Decimal) = some d) :
      d.exponent = e.scale + step := by
    cases hd
    rfl
  simp only [onGrid?] at h
  split at h
  · split at h <;> exact picked h
  · exact picked h
  · exact picked h
  · cases h

theorem exponent_firstGrid (h : 0 ≤ e.exponent) (steps : Nat) :
    0 ≤ (e.firstGrid tie steps).exponent := by
  have scale : e.scale = 0 := min_eq_right h
  induction steps with
  | zero => exact scale.ge
  | succ step ih =>
    rw [firstGrid]
    split
    · next found =>
      rw [exponent_onGrid? found, scale]
      omega
    · exact ih

/-- The shortest decimal of a double whose last place is whole has no places. -/
theorem exponent_shortest (h : 0 ≤ e.exponent) : 0 ≤ (e.shortest tie).exponent :=
  Decimal.exponent_trimmed (exponent_firstGrid h _)

theorem Normal.exponent_nonneg (normal : e.Normal) (large : tokenBound ≤ e.whole) :
    0 ≤ e.exponent := by
  by_contra negative
  have small := normal.mantissa_lt
  have below : e.whole ≤ e.mantissa := by
    rw [whole, if_neg negative]
    exact Nat.div_le_self _ _
  rw [hiddenBit_eq] at small
  rw [show tokenBound = 9223372036854775808 from rfl] at large
  omega

end Exact

/-- The double is a whole number from the bound on. -/
def isLarge (x : Float) : Bool := (Exact.ofFloat? x).any fun e => e.isWhole && tokenBound ≤ e.whole

theorem isLarge_iff :
    isLarge x ↔ ∃ e, Exact.ofFloat? x = some e ∧ e.isWhole ∧ tokenBound ≤ e.whole := by
  simp [isLarge, Option.any_eq_true]

theorem isWhole_of_isLarge (h : isLarge x) : isWhole x := by
  obtain ⟨e, he, whole, -⟩ := isLarge_iff.mp h
  rwa [isWhole, he]

/-- The text ends in a point and a zero. -/
def EndsInZero (text : String) : Prop := ∃ whole, text = whole ++ ".0"

theorem endsInZero_literal (h : isWhole x) : EndsInZero (literal x) := ⟨display x, if_pos h⟩

theorem not_endsInZero {text : String} (digits : ∀ c ∈ text.toList, c.isDigit) :
    ¬ EndsInZero text := by
  rintro ⟨whole, rfl⟩
  have point : '.'.isDigit := digits '.' (by simp)
  cases point

section SignFree

/-! Of a number without a sign both texts are those of its magnitude. -/

variable (hx : SignFree x)
include hx

theorem literal_eq_unsigned (he : Exact.ofFloat? x = some e) : literal x = e.unsigned := by
  rw [literal_eq he, Exact.signed, hx.negative he]
  rfl

theorem tokenLiteral_eq (he : Exact.ofFloat? x = some e) :
    tokenLiteral x = if e.isWhole && decide (e.whole < tokenBound) then e.whole.repr ++ ".0"
      else (e.shortest .up).positional := by
  simp only [tokenLiteral, he, Exact.signed, hx.negative he, Bool.false_eq_true, if_false]
  split_ifs with small zero
  · rw [zero]
    rfl
  · rfl
  · rfl

/-- The texts are the same below the bound, and where a number is not whole or not finite. -/
theorem tokenLiteral_eq_literal (small : ¬ isLarge x) : tokenLiteral x = literal x := by
  cases he : Exact.ofFloat? x with
  | none =>
    simp only [tokenLiteral, literal, isWhole, display, he, Option.any_none, Bool.false_eq_true,
      if_false]
  | some e =>
    rw [tokenLiteral_eq hx he, literal_eq_unsigned hx he, Exact.unsigned]
    cases whole : e.isWhole with
    | false => rfl
    | true =>
      have below : e.whole < tokenBound := by
        by_contra large
        exact small (isLarge_iff.mpr ⟨e, he, whole, not_lt.mp large⟩)
      rw [Bool.true_and, if_pos (decide_eq_true below), if_pos rfl]

/-- From the bound on the token shows digits alone. -/
theorem isDigit_of_isLarge (large : isLarge x) : ∀ c ∈ (tokenLiteral x).toList, c.isDigit := by
  obtain ⟨e, he, -, above⟩ := isLarge_iff.mp large
  have noPlace : ¬ (e.isWhole && decide (e.whole < tokenBound)) = true := by
    simp [not_lt.mpr above]
  rw [tokenLiteral_eq hx he, if_neg noPlace]
  exact isDigit_of_mem_positional
    (Exact.exponent_shortest ((Exact.ofFloat?_normal he).exponent_nonneg above))

theorem tokenLiteral_eq_literal_iff : tokenLiteral x = literal x ↔ ¬ isLarge x := by
  refine ⟨fun same large => ?_, tokenLiteral_eq_literal hx⟩
  refine not_endsInZero (isDigit_of_isLarge hx large) ?_
  rw [same]
  exact endsInZero_literal (isWhole_of_isLarge large)

theorem endsInZero_tokenLiteral_iff (whole : isWhole x) :
    EndsInZero (tokenLiteral x) ↔ ¬ isLarge x := by
  refine ⟨fun ends large => not_endsInZero (isDigit_of_isLarge hx large) ends, fun small => ?_⟩
  rw [tokenLiteral_eq_literal hx small]
  exact endsInZero_literal whole

end SignFree

end Number

section Source

open Piece

variable {source : List UInt8} {value : Float}

theorem Spells.cutBefore (h : Spells source (.number value)) :
    CutBefore ⟨.token (.number value), source⟩ [] := by
  generalize hkind : TokenKind.number value = kind at h
  cases h with
  | @whole digits h =>
    obtain ⟨first, more, rfl⟩ := List.exists_cons_of_ne_nil h.1
    exact .whole h.2 .nil rfl
  | @decimal digits places h h' =>
    obtain ⟨first, more, rfl⟩ := List.exists_cons_of_ne_nil h.1
    obtain ⟨place, places, rfl⟩ := List.exists_cons_of_ne_nil h'.1
    exact .decimal h.2 h'.2 .nil
  | _ => cases hkind

theorem Spells.signFree (h : Spells source (.number value)) : Number.SignFree value := by
  generalize hkind : TokenKind.number value = kind at h
  cases h with
  | whole | decimal =>
    cases hkind
    exact Number.signFree_ofNumeral ..
  | _ => cases hkind

/-- A source that is a numeral says one token. -/
theorem Spells.ofSource_eq (h : Spells source (.number value)) :
    Item.ofSource source = [⟨.number value, Text.decodeString source, 1 + lineEnds source⟩,
      Scanner.endToken source].map .token := by
  have cut := h.cutBefore.cut_eq
  simp only [List.append_nil] at cut
  rw [Item.ofSource_eq, cut, cut_nil]
  rfl

theorem Spells.parseExpression_eq (h : Spells source (.number value)) :
    parseExpression source = .ok (.literal (.number value)) := by
  rw [parseExpression, scan, tokens_eq_ok_iff.mpr h.ofSource_eq]
  with_unfolding_all rfl

theorem Spells.tokenize_eq (h : Spells source (.number value)) :
    CommandLine.tokenize source = ⟨0, CommandLine.lines
      ["NUMBER " ++ Text.decodeString source ++ " " ++ Number.tokenLiteral value, "EOF  null"],
      ""⟩ := by
  rw [CommandLine.tokenize, h.ofSource_eq]
  rfl

/-- A source that is a numeral is scanned to one token and read as one literal. Their texts are the
same just where the value is no whole number from the bound on. That of the tree ends in a point and
a zero for every whole number; that of the token does so below the bound only, and is digits alone
from there on. -/
theorem literals_agree {source : List UInt8} {value : Float}
    (numeral : Spells source (.number value)) :
    ∃ t e, tokens source = .ok [t, Scanner.endToken source] ∧ parseExpression source = .ok e ∧
      CommandLine.tokenize source = ⟨0, CommandLine.lines
        ["NUMBER " ++ Text.decodeString source ++ " " ++ t.literal, "EOF  null"], ""⟩ ∧
      (t.literal = e.printed ↔ ¬ Number.isLarge value) ∧
      (Number.isWhole value → Number.EndsInZero e.printed ∧
        (Number.EndsInZero t.literal ↔ ¬ Number.isLarge value)) ∧
      (Number.isLarge value → ∀ c ∈ t.literal.toList, c.isDigit) := by
  have free := numeral.signFree
  exact ⟨_, _, tokens_eq_ok_iff.mpr numeral.ofSource_eq, numeral.parseExpression_eq,
    numeral.tokenize_eq, Number.tokenLiteral_eq_literal_iff free,
    fun whole => ⟨Number.endsInZero_literal whole, Number.endsInZero_tokenLiteral_iff free whole⟩,
    Number.isDigit_of_isLarge free⟩

namespace Boundary

/-- The largest double below the bound. -/
def below : List UInt8 := Text.encode "9223372036854774784"

/-- The bound itself. -/
def bound : List UInt8 := Text.encode "9223372036854775808"

theorem below_spells : Spells below (.number (Number.ofNumeral below [])) :=
  .whole ⟨by decide +kernel, by decide +kernel⟩

theorem bound_spells : Spells bound (.number (Number.ofNumeral bound [])) :=
  .whole ⟨by decide +kernel, by decide +kernel⟩

theorem below_agrees :
    Spells below (.number (Number.ofNumeral below [])) ∧
    Number.isWhole (Number.ofNumeral below []) ∧
      ∃ t e, tokens below = .ok [t, Scanner.endToken below] ∧ parseExpression below = .ok e ∧
        t.literal = e.printed ∧ Number.EndsInZero t.literal := by
  have small : ¬ Number.isLarge (Number.ofNumeral below []) := by decide +kernel
  have whole : Number.isWhole (Number.ofNumeral below []) := by decide +kernel
  obtain ⟨t, e, scanned, parsed, -, same, ends, -⟩ := literals_agree below_spells
  exact ⟨below_spells, whole, t, e, scanned, parsed, same.mpr small, (ends whole).2.mpr small⟩

/-- The tree has the number itself and a place; the token has its shortest digits, filled up with
zeros. -/
theorem bound_differs :
    Spells bound (.number (Number.ofNumeral bound [])) ∧
    Number.isWhole (Number.ofNumeral bound []) ∧
      ∃ t e, tokens bound = .ok [t, Scanner.endToken bound] ∧ parseExpression bound = .ok e ∧
        t.literal = "9223372036854776000" ∧ e.printed = "9223372036854775808.0" ∧
        t.literal ≠ e.printed ∧ ¬ Number.EndsInZero t.literal := by
  have shown : Number.tokenLiteral (Number.ofNumeral bound []) = "9223372036854776000" := by
    decide +kernel
  have printed : Number.literal (Number.ofNumeral bound []) = "9223372036854775808.0" := by
    decide +kernel
  have large : Number.isLarge (Number.ofNumeral bound []) := by decide +kernel
  have digits := Number.isDigit_of_isLarge bound_spells.signFree large
  refine ⟨bound_spells, Number.isWhole_of_isLarge large, _, _,
    tokens_eq_ok_iff.mpr bound_spells.ofSource_eq, bound_spells.parseExpression_eq, shown, printed,
    fun same => ?_, Number.not_endsInZero digits⟩
  exact absurd (shown.symm.trans (same.trans printed)) (by decide)

end Boundary

end Source

end ClassScript
