import ClassScript.Number.Text
import ClassScript.Proofs.Number.Intervals
import Mathlib.Data.List.TakeWhile
import Mathlib.Data.Nat.Cast.Field
import Mathlib.Tactic.Positivity
import Mathlib.Tactic.Ring

/-! What the texts of numbers say: read as a decimal, the literal of a finite double is a number
that rounds to it. Different doubles therefore have different literals. -/
namespace ClassScript.Number

variable {x y : Float} {e : Exact} {d : Decimal} {tie : Tie} {digits whole places : List Char}

/-- The number that a decimal stands for. -/
def Decimal.value (d : Decimal) : ℚ := d.coefficient * 10 ^ d.exponent

theorem Decimal.value_trimmed (d : Decimal) : d.trimmed.value = d.value := by
  induction d using Decimal.trimmed.induct with
  | case1 d zero =>
    rw [trimmed, dif_pos zero, value, value, zero]
    simp
  | case2 d nonzero multiple ih =>
    rw [trimmed, dif_neg nonzero, if_pos multiple, ih, value, value, zpow_add_one₀ (by norm_num)]
    have split : (d.coefficient : ℚ) = 10 * (d.coefficient / 10 : ℕ) := by
      exact_mod_cast (by omega : d.coefficient = 10 * (d.coefficient / 10))
    rw [split]
    ring
  | case3 d nonzero last => rw [trimmed, dif_neg nonzero, if_neg last]

namespace Exact

/-- A unit of the mantissa, counted in units of the power of ten. -/
theorem unit_mul_scale (e : Exact) : (e.unit : ℚ) * 10 ^ e.scale = e.last := by
  unfold unit scale last
  split_ifs with h
  · rw [min_eq_right h, zpow_zero, mul_one]
    have hn : ((Nat.pow 2 e.exponent.toNat : ℕ) : ℚ) = 2 ^ e.exponent.toNat := Nat.cast_pow 2 _
    rw [hn, ← zpow_natCast, Int.toNat_of_nonneg h]
  · have negative : e.exponent ≤ 0 := by omega
    have hn : ((Nat.pow 5 (-e.exponent).toNat : ℕ) : ℚ) = 5 ^ (-e.exponent).toNat :=
      Nat.cast_pow 5 _
    rw [min_eq_left negative, hn, ← zpow_natCast, Int.toNat_of_nonneg (by omega), zpow_neg]
    rw [show (10 : ℚ) = 5 * 2 by norm_num, mul_zpow, ← mul_assoc,
      inv_mul_cancel₀ (zpow_ne_zero _ (by norm_num)), one_mul]

theorem value_decimal (e : Exact) : e.decimal.value = e.value := by
  rw [decimal, Decimal.value, value, ← unit_mul_scale, ← mul_assoc, Nat.cast_mul]

theorem rounds_of_readsAs {coefficient : Nat} (h : e.readsAs coefficient) :
    e.Rounds (coefficient * 10 ^ e.scale) := by
  have hs : (0 : ℚ) < 10 ^ e.scale := zpow_pos (by norm_num) _
  have ends (n : Nat) : (n : ℚ) * e.last = (n * e.unit : ℕ) * 10 ^ e.scale := by
    rw [← unit_mul_scale, ← mul_assoc, Nat.cast_mul]
  have middle : 4 * (coefficient * 10 ^ e.scale : ℚ) = (4 * coefficient : ℕ) * 10 ^ e.scale := by
    rw [← mul_assoc, Nat.cast_mul, Nat.cast_ofNat]
  unfold readsAs at h
  unfold Rounds
  rw [ends, ends, middle]
  simp only [mul_le_mul_iff_left₀ hs, mul_lt_mul_iff_left₀ hs, Nat.cast_le, Nat.cast_lt, below,
    above]
  split_ifs at h ⊢ <;> simpa using h

theorem rounds_of_onGrid? {step : Nat} (h : e.onGrid? tie step = some d) : e.Rounds d.value := by
  have reads {coefficient : Nat} (hr : e.readsAs (coefficient * Nat.pow 10 step))
      (hd : some (⟨coefficient, e.scale + step⟩ : Decimal) = some d) : e.Rounds d.value := by
    cases hd
    have rounds := rounds_of_readsAs hr
    have power : ((Nat.pow 10 step : ℕ) : ℚ) = 10 ^ step := Nat.cast_pow 10 _
    rw [Nat.cast_mul, power, mul_assoc, ← zpow_natCast, ← zpow_add₀ (by norm_num),
      add_comm] at rounds
    exact rounds
  simp only [onGrid?] at h
  split at h
  · next hb ha =>
    split at h
    · exact reads hb h
    · exact reads ha h
    · exact reads ha h
    · split_ifs at h
      exacts [reads hb h, reads ha h]
  · next hb _ => exact reads hb h
  · next _ ha => exact reads ha h
  · cases h

theorem rounds_firstGrid (tie : Tie) (e : Exact) (steps : Nat) :
    e.Rounds (e.firstGrid tie steps).value := by
  induction steps with
  | zero =>
    rw [firstGrid, value_decimal]
    exact e.rounds_value
  | succ step ih =>
    rw [firstGrid]
    split
    · next h => exact rounds_of_onGrid? h
    · exact ih

/-- The shortest decimal reads back. -/
theorem rounds_shortest (tie : Tie) (e : Exact) : e.Rounds (e.shortest tie).value := by
  rw [shortest, Decimal.value_trimmed]
  exact rounds_firstGrid tie e _

theorem whole_value (h : e.isWhole) : (e.whole : ℚ) = e.value := by
  unfold whole value last
  split_ifs with nonneg
  · have hn : ((Nat.pow 2 e.exponent.toNat : ℕ) : ℚ) = 2 ^ e.exponent.toNat := Nat.cast_pow 2 _
    rw [Nat.cast_mul, hn, ← zpow_natCast, Int.toNat_of_nonneg nonneg]
  · have hn : ((Nat.pow 2 (-e.exponent).toNat : ℕ) : ℚ) = 2 ^ (-e.exponent).toNat :=
      Nat.cast_pow 2 _
    have divides : Nat.pow 2 (-e.exponent).toNat ∣ e.mantissa := by
      simpa [isWhole, nonneg, Nat.dvd_iff_mod_eq_zero] using h
    rw [Nat.cast_div divides (by rw [hn]; positivity), hn, ← zpow_natCast,
      Int.toNat_of_nonneg (by omega), zpow_neg, div_inv_eq_mul]

end Exact

/-- The number that a text of digits writes, with a point or without. -/
def textValue (text : List Char) : ℚ :=
  let whole := text.takeWhile (· ≠ '.')
  let places := (text.dropWhile (· ≠ '.')).drop 1
  Nat.ofDigitChars 10 (whole ++ places) 0 / 10 ^ places.length

theorem ne_point_of_isDigit {c : Char} (h : c.isDigit) : c ≠ '.' := by
  rintro rfl
  cases h

theorem textValue_whole (h : ∀ c ∈ whole, c.isDigit) :
    textValue whole = Nat.ofDigitChars 10 whole 0 := by
  have all : ∀ c ∈ whole, decide (c ≠ '.') = true := fun c hc =>
    decide_eq_true (ne_point_of_isDigit (h c hc))
  simp only [textValue]
  rw [List.takeWhile_eq_self_iff.mpr all, List.dropWhile_eq_nil_iff.mpr all]
  simp

theorem textValue_point (h : ∀ c ∈ whole, c.isDigit) :
    textValue (whole ++ '.' :: places) =
      Nat.ofDigitChars 10 (whole ++ places) 0 / 10 ^ places.length := by
  have all : ∀ c ∈ whole, decide (c ≠ '.') = true := fun c hc =>
    decide_eq_true (ne_point_of_isDigit (h c hc))
  simp only [textValue]
  rw [List.takeWhile_append_of_pos all, List.dropWhile_append_of_pos all]
  simp

theorem isDigit_of_mem_digits {c : Char} (h : c ∈ d.digits) : c.isDigit :=
  Nat.isDigit_of_mem_toDigits (by decide) (by decide) h

theorem isDigit_of_mem_zeros {c : Char} {n : Nat} (h : c ∈ List.replicate n '0') : c.isDigit := by
  cases List.eq_of_mem_replicate h
  rfl

theorem Decimal.digits_value (d : Decimal) : Nat.ofDigitChars 10 d.digits 0 = d.coefficient :=
  Nat.ofDigitChars_ten_toDigits

/-- The text of a numeral: digits, with a point and places behind them or without. -/
inductive Numeral : List Char → Prop
  | whole {ds : List Char} (hn : ds ≠ []) (hw : ∀ c ∈ ds, c.isDigit) : Numeral ds
  | point {ds ps : List Char} (hn : ds ≠ []) (hw : ∀ c ∈ ds, c.isDigit) (hp : ∀ c ∈ ps, c.isDigit) :
    Numeral (ds ++ '.' :: ps)

/-- A decimal with places has the point that many digits before the end. -/
theorem positional_point (h : ¬ 0 ≤ d.exponent) :
    ∃ whole places, d.positional.toList = whole ++ '.' :: places ∧ whole ≠ [] ∧
      (∀ c ∈ whole, c.isDigit) ∧ (∀ c ∈ places, c.isDigit) ∧
      places.length = (-d.exponent).toNat ∧
      Nat.ofDigitChars 10 (whole ++ places) 0 = d.coefficient := by
  have digit {c : Char} : c ∈ d.digits → c.isDigit := isDigit_of_mem_digits
  simp only [Decimal.positional, if_neg h]
  split_ifs with short
  · refine ⟨['0'], .replicate ((-d.exponent).toNat - d.digits.length) '0' ++ d.digits,
      by rw [String.toList_append, String.toList_ofList (l := _ ++ _)]; rfl, nofun, by simp,
      ?_, ?_, ?_⟩
    · exact fun c hc => (List.mem_append.mp hc).elim isDigit_of_mem_zeros digit
    · rw [List.length_append, List.length_replicate, Nat.sub_add_cancel short]
    · rw [← List.append_assoc, List.singleton_append, ← List.replicate_succ,
        Nat.ofDigitChars_append, Nat.ofDigitChars_replicate_zero, Nat.mul_zero, d.digits_value]
  · refine ⟨d.digits.take (d.digits.length - (-d.exponent).toNat),
      d.digits.drop (d.digits.length - (-d.exponent).toNat),
      by simp only [String.toList_append, String.toList_ofList, List.append_assoc]; rfl, ?_,
      fun c hc => digit (List.mem_of_mem_take hc), fun c hc => digit (List.mem_of_mem_drop hc),
      ?_, ?_⟩
    · rw [Ne, List.take_eq_nil_iff, ← List.length_eq_zero_iff]
      omega
    · rw [List.length_drop]
      omega
    · rw [List.take_append_drop, d.digits_value]

theorem positional_whole (h : 0 ≤ d.exponent) :
    d.positional.toList = d.digits ++ .replicate d.exponent.toNat '0' := by
  simp only [Decimal.positional, if_pos h, String.toList_ofList]

theorem numeral_positional (d : Decimal) : Numeral d.positional.toList := by
  by_cases h : 0 ≤ d.exponent
  · rw [positional_whole h]
    refine .whole (fun none => Nat.toDigits_ne_nil (List.append_eq_nil_iff.mp none).1)
      fun c hc => ?_
    exact (List.mem_append.mp hc).elim isDigit_of_mem_digits isDigit_of_mem_zeros
  · obtain ⟨whole, places, text, nonempty, hw, hp, -⟩ := positional_point h
    rw [text]
    exact .point nonempty hw hp

/-- All places written out say what the decimal says. -/
theorem textValue_positional (d : Decimal) : textValue d.positional.toList = d.value := by
  by_cases h : 0 ≤ d.exponent
  · have digit (c : Char) (hc : c ∈ d.digits ++ .replicate d.exponent.toNat '0') : c.isDigit :=
      (List.mem_append.mp hc).elim isDigit_of_mem_digits isDigit_of_mem_zeros
    rw [positional_whole h, textValue_whole digit, Nat.ofDigitChars_append,
      Nat.ofDigitChars_replicate_zero, d.digits_value, Decimal.value, Nat.cast_mul, Nat.cast_pow,
      Nat.cast_ofNat, ← zpow_natCast, Int.toNat_of_nonneg h, mul_comm]
  · obtain ⟨whole, places, text, -, hw, -, length, value⟩ := positional_point h
    rw [text, textValue_point hw, value, length, Decimal.value, ← zpow_natCast,
      Int.toNat_of_nonneg (by omega), zpow_neg, div_inv_eq_mul]

/-- The literal of a finite double without its sign. -/
def Exact.unsigned (e : Exact) : String :=
  if e.isWhole then e.whole.repr ++ ".0" else (e.shortest .up).positional

theorem literal_eq (h : Exact.ofFloat? x = some e) : literal x = e.signed e.unsigned := by
  simp only [literal, isWhole, display, h, Option.any_some, Exact.unsigned, Exact.signed]
  split_ifs <;> simp only [String.append_assoc]

theorem toList_unsigned_of_isWhole (h : e.isWhole) :
    e.unsigned.toList = Nat.toDigits 10 e.whole ++ '.' :: ['0'] := by
  rw [Exact.unsigned, if_pos h, Nat.repr_eq_ofList_toDigits, String.toList_append,
    String.toList_ofList]
  rfl

theorem numeral_unsigned (e : Exact) : Numeral e.unsigned.toList := by
  by_cases h : e.isWhole
  · rw [toList_unsigned_of_isWhole h]
    exact .point Nat.toDigits_ne_nil (fun _ => Nat.isDigit_of_mem_toDigits (by decide) (by decide))
      (by simp)
  · rw [Exact.unsigned, if_neg h]
    exact numeral_positional _

/-- The literal of a finite double reads back. -/
theorem rounds_unsigned (e : Exact) : e.Rounds (textValue e.unsigned.toList) := by
  by_cases h : e.isWhole
  · rw [toList_unsigned_of_isWhole h, textValue_point fun _ =>
      Nat.isDigit_of_mem_toDigits (by decide) (by decide), Nat.ofDigitChars_append,
      Nat.ofDigitChars_ten_toDigits]
    have whole : ((Nat.ofDigitChars 10 ['0'] e.whole : ℕ) : ℚ) / 10 ^ ['0'].length = e.whole := by
      rw [show Nat.ofDigitChars 10 ['0'] e.whole = 10 * e.whole from rfl, Nat.cast_mul]
      simp
    rw [whole, Exact.whole_value h]
    exact e.rounds_value
  · rw [Exact.unsigned, if_neg h, textValue_positional]
    exact Exact.rounds_shortest _ e

theorem Numeral.head {text : List Char} (h : Numeral text) :
    ∃ c more, text = c :: more ∧ c.isDigit := by
  cases h with
  | whole hn hw =>
    obtain ⟨c, more, rfl⟩ := List.exists_cons_of_ne_nil hn
    exact ⟨c, more, rfl, hw c List.mem_cons_self⟩
  | point hn hw =>
    obtain ⟨c, more, rfl⟩ := List.exists_cons_of_ne_nil hn
    exact ⟨c, _, rfl, hw c List.mem_cons_self⟩

theorem toList_signed (e : Exact) (text : String) :
    (e.signed text).toList = (if e.negative then ['-'] else []) ++ text.toList := by
  unfold Exact.signed
  split_ifs
  · rw [String.toList_append]
    rfl
  · rfl

/-- The sign is written apart from the digits. -/
theorem signed_inj {e e' : Exact} {text text' : String} (ht : Numeral text.toList)
    (ht' : Numeral text'.toList) (h : e.signed text = e'.signed text') :
    e.negative = e'.negative ∧ text = text' := by
  obtain ⟨c, more, hc, digit⟩ := ht.head
  obtain ⟨c', more', hc', digit'⟩ := ht'.head
  have lists := congrArg String.toList h
  rw [toList_signed, toList_signed] at lists
  cases hn : e.negative <;> cases hn' : e'.negative <;>
    simp only [hn, hn', if_true, Bool.false_eq_true, if_false, List.nil_append, List.cons_append,
      List.cons.injEq, true_and] at lists
  · exact ⟨rfl, String.toList_inj.mp lists⟩
  · rw [hc] at lists
    cases lists
    cases digit
  · rw [hc'] at lists
    cases lists
    cases digit'
  · exact ⟨rfl, String.toList_inj.mp lists⟩

/-- The double is a number; infinities and NaN are not. -/
def isFinite (x : Float) : Bool := (Exact.ofFloat? x).isSome

/-- Finite doubles with one literal are one double. -/
theorem literal_inj (hx : isFinite x) (hy : isFinite y) (h : literal x = literal y) : x = y := by
  obtain ⟨e, he⟩ := Option.isSome_iff_exists.mp hx
  obtain ⟨e', he'⟩ := Option.isSome_iff_exists.mp hy
  rw [literal_eq he, literal_eq he'] at h
  obtain ⟨sign, text⟩ := signed_inj (numeral_unsigned e) (numeral_unsigned e') h
  have rounds := rounds_unsigned e'
  rw [← text] at rounds
  cases Exact.eq_of_rounds (Exact.ofFloat?_normal he) (Exact.ofFloat?_normal he')
    (rounds_unsigned e) rounds sign
  exact Exact.ofFloat?_injective he he'

/-- The literal of a finite double is a numeral, with a sign before it or without. -/
theorem numeral_literal (hx : isFinite x) :
    Numeral (literal x).toList ∨ ∃ text, (literal x).toList = '-' :: text ∧ Numeral text := by
  obtain ⟨e, he⟩ := Option.isSome_iff_exists.mp hx
  rw [literal_eq he, toList_signed]
  cases e.negative
  · exact .inl (numeral_unsigned e)
  · exact .inr ⟨_, rfl, numeral_unsigned e⟩

end ClassScript.Number
