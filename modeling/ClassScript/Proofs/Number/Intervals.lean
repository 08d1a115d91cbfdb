import ClassScript.Number.Shortest
import Mathlib.Algebra.Order.Field.Power
import Mathlib.Data.Rat.Cast.Order
import Mathlib.Tactic.Linarith

/-! The numbers that round to a double. Those of different magnitudes have no number in common: the
intervals of neighbours meet at the middle between them, and there only the even one is closed. -/
namespace ClassScript.Number.Exact

variable {x y : Exact} {q : ℚ}

theorem hiddenBit_eq : hiddenBit = 4503599627370496 := rfl

theorem signBit_eq : signBit = 9223372036854775808 := rfl

/-- The magnitude of one unit of the mantissa. -/
def last (x : Exact) : ℚ := 2 ^ x.exponent

/-- The magnitude. -/
def value (x : Exact) : ℚ := x.mantissa * x.last

theorem last_pos (x : Exact) : 0 < x.last := zpow_pos (by norm_num) _

/-- The parts of a double: a mantissa of 53 bits, fewer only at the least exponent. -/
structure Normal (x : Exact) : Prop where
  mantissa_lt : x.mantissa < 2 * hiddenBit
  least : minExponent ≤ x.exponent
  full : minExponent < x.exponent → hiddenBit ≤ x.mantissa

theorem ofFloat?_normal {f : Float} (h : ofFloat? f = some x) : x.Normal := by
  have fraction := Nat.mod_lt f.toBits.toNat (show 0 < hiddenBit by decide)
  simp only [ofFloat?] at h
  split_ifs at h with hnone hzero <;> cases h
  · exact ⟨by simp only; omega, le_rfl, fun h => absurd h (lt_irrefl _)⟩
  · refine ⟨by simp only; omega, by simp only [minExponent]; omega, fun _ => Nat.le_add_right _ _⟩

/-- The stored exponent, which is zero for a subnormal. -/
def field (x : Exact) : Nat :=
  if x.mantissa < hiddenBit then 0 else (x.exponent + 1075).toNat

/-- The bits of a double by its parts. -/
def word (x : Exact) : Nat :=
  (if x.negative then signBit else 0) + x.field * hiddenBit + x.mantissa % hiddenBit

theorem toBits_of_ofFloat? {f : Float} (h : ofFloat? f = some x) : f.toBits.toNat = x.word := by
  have bound := f.toBits.toNat_lt
  generalize hbits : f.toBits.toNat = bits at bound
  simp only [ofFloat?, hbits] at h
  have parts : bits = (if bits / signBit == 1 then signBit else 0) +
      bits / hiddenBit % 2048 * hiddenBit + bits % hiddenBit := by
    simp only [signBit_eq, hiddenBit_eq, beq_iff_eq]
    split_ifs <;> omega
  split_ifs at h with hnone hzero <;> cases h
  · have small : bits % hiddenBit < hiddenBit := Nat.mod_lt _ (by decide)
    simp only [word, field, if_pos small, Nat.mod_mod]
    rwa [hzero] at parts
  · have large : ¬ hiddenBit + bits % hiddenBit < hiddenBit := Nat.not_lt.mpr (Nat.le_add_right _ _)
    simp only [word, field, if_neg large, Nat.add_mod_left, Nat.mod_mod, Int.sub_add_cancel,
      Int.toNat_natCast]
    exact parts

/-- The parts tell a double from any other. -/
theorem ofFloat?_injective {f g : Float} (hf : ofFloat? f = some x) (hg : ofFloat? g = some x) :
    f = g := by
  have bits : f.toBits = g.toBits :=
    UInt64.toNat_inj.mp ((toBits_of_ofFloat? hf).trans (toBits_of_ofFloat? hg).symm)
  obtain ⟨⟨fbits, _⟩⟩ := f
  obtain ⟨⟨gbits, _⟩⟩ := g
  cases (bits : fbits = gbits)
  rfl

/-- How far the interval reaches down, in quarters of a unit. -/
def below (x : Exact) : Nat := 4 * x.mantissa - if x.atBinade then 1 else 2

/-- How far the interval reaches up, in quarters of a unit. -/
def above (x : Exact) : Nat := 4 * x.mantissa + 2

/-- The number rounds to the magnitude; the ends of the interval belong to an even mantissa. -/
def Rounds (x : Exact) (q : ℚ) : Prop :=
  if x.mantissa % 2 = 0 then x.below * x.last ≤ 4 * q ∧ 4 * q ≤ x.above * x.last
  else x.below * x.last < 4 * q ∧ 4 * q < x.above * x.last

theorem Rounds.ge (h : x.Rounds q) : x.below * x.last ≤ 4 * q := by
  unfold Rounds at h
  split_ifs at h with even
  exacts [h.1, h.1.le]

theorem Rounds.le (h : x.Rounds q) : 4 * q ≤ x.above * x.last := by
  unfold Rounds at h
  split_ifs at h with even
  exacts [h.2, h.2.le]

theorem Rounds.gt (h : x.Rounds q) (odd : x.mantissa % 2 = 1) : x.below * x.last < 4 * q := by
  rw [Rounds, if_neg (by omega)] at h
  exact h.1

theorem Rounds.lt (h : x.Rounds q) (odd : x.mantissa % 2 = 1) : 4 * q < x.above * x.last := by
  rw [Rounds, if_neg (by omega)] at h
  exact h.2

/-- A magnitude rounds to itself. -/
theorem rounds_value (x : Exact) : x.Rounds x.value := by
  have hu := x.last_pos
  have high : 4 * x.value < x.above * x.last := by
    simp only [value, above]
    push_cast
    linarith
  unfold Rounds
  split_ifs with even
  · have low : (x.below : ℚ) ≤ 4 * x.mantissa := by exact_mod_cast Nat.sub_le _ _
    exact ⟨by rw [value]; nlinarith, high.le⟩
  · have low : (x.below : ℚ) < 4 * x.mantissa := by
      exact_mod_cast (show x.below < 4 * x.mantissa by unfold below; split_ifs <;> omega)
    exact ⟨by rw [value]; nlinarith, high⟩

/-- An interval ends where the next one begins or before it; where both reach the same number, one
of the two mantissas is odd. -/
theorem Rounds.not_of_lt (hx : x.Rounds q) (hy : y.Rounds q)
    (h : x.above * x.last ≤ y.below * y.last)
    (parity : x.above * x.last = y.below * y.last → x.mantissa % 2 = 1 ∨ y.mantissa % 2 = 1) :
    False := by
  have meet : x.above * x.last = y.below * y.last := le_antisymm h (hy.ge.trans hx.le)
  rcases parity meet with odd | odd
  · exact absurd (hx.lt odd) (by linarith [hy.ge])
  · exact absurd (hy.gt odd) (by linarith [hx.le])

/-- At one exponent the intervals of different mantissas have no number in common. -/
theorem not_rounds_of_mantissa_lt (he : x.exponent = y.exponent) (hm : x.mantissa < y.mantissa)
    (hx : x.Rounds q) (hy : y.Rounds q) : False := by
  have hu := x.last_pos
  have last : y.last = x.last := by rw [last, last, he]
  have order : x.above ≤ y.below := by
    unfold above below
    split_ifs <;> omega
  refine hx.not_of_lt hy ?_ fun meet => ?_ <;> rw [last] at *
  · exact mul_le_mul_of_nonneg_right (by exact_mod_cast order) hu.le
  · have same : x.above = y.below := by exact_mod_cast mul_right_cancel₀ hu.ne' meet
    unfold above below at same
    split_ifs at same <;> omega

/-- The intervals of one exponent end before those of a larger one begin. -/
theorem not_rounds_of_exponent_lt (nx : x.Normal) (ny : y.Normal) (he : x.exponent < y.exponent)
    (hx : x.Rounds q) (hy : y.Rounds q) : False := by
  have hu := x.last_pos
  have above_least : minExponent < y.exponent := nx.least.trans_lt he
  have full := ny.full above_least
  have small := nx.mantissa_lt
  have double : 2 * x.last ≤ y.last := by
    calc 2 * x.last = 2 ^ (x.exponent + 1) := by rw [last, zpow_add_one₀ (by norm_num), mul_comm]
      _ ≤ y.last := zpow_le_zpow_right₀ (by norm_num) he
  have order : x.above ≤ 2 * y.below := by
    have binade : y.atBinade = (y.mantissa == hiddenBit) := by simp [atBinade, above_least]
    unfold above below
    rw [binade]
    rw [hiddenBit_eq] at small full ⊢
    split_ifs with first
    · omega
    · rw [beq_iff_eq] at first
      omega
  have order' : (x.above : ℚ) ≤ 2 * y.below := by exact_mod_cast order
  refine hx.not_of_lt hy (by nlinarith) fun meet => .inl ?_
  have same : x.above = 2 * y.below := by
    have : (x.above : ℚ) = 2 * y.below := by
      refine le_antisymm order' ?_
      have : (0 : ℚ) ≤ y.below := Nat.cast_nonneg _
      by_contra less
      nlinarith
    exact_mod_cast this
  unfold above below at same
  rw [hiddenBit_eq] at small full
  split_ifs at same <;> omega

/-- Magnitudes to which one number rounds are the same. -/
theorem eq_of_rounds (nx : x.Normal) (ny : y.Normal) (hx : x.Rounds q) (hy : y.Rounds q)
    (sign : x.negative = y.negative) : x = y := by
  have exponents : x.exponent = y.exponent := by
    rcases lt_trichotomy x.exponent y.exponent with less | same | more
    · exact (not_rounds_of_exponent_lt nx ny less hx hy).elim
    · exact same
    · exact (not_rounds_of_exponent_lt ny nx more hy hx).elim
  have mantissas : x.mantissa = y.mantissa := by
    rcases lt_trichotomy x.mantissa y.mantissa with less | same | more
    · exact (not_rounds_of_mantissa_lt exponents less hx hy).elim
    · exact same
    · exact (not_rounds_of_mantissa_lt exponents.symm more hy hx).elim
  cases x
  cases y
  simp_all

end ClassScript.Number.Exact
