import ClassScript.Proofs.Text.Encoding

/-! The order of texts is the order of their bytes: a character with a higher number has a higher
byte at the first place where the bytes of two characters differ. -/
namespace ClassScript.Text

open String (utf8EncodeChar)

/-- At the first place where the bytes differ, the first ones have the lower byte. Neither is an
initial part of the other. -/
inductive Below : List UInt8 → List UInt8 → Prop
  | here {a b : UInt8} {as bs : List UInt8} (lower : a < b) : Below (a :: as) (b :: bs)
  | behind {a : UInt8} {as bs : List UInt8} (h : Below as bs) : Below (a :: as) (a :: bs)

namespace Below

variable {as bs : List UInt8}

theorem append (h : Below as bs) (us vs : List UInt8) : Below (as ++ us) (bs ++ vs) := by
  induction h with
  | here lower => exact here lower
  | behind _ ih => exact behind ih

theorem front (h : Below as bs) (us : List UInt8) : Below (us ++ as) (us ++ bs) := by
  induction us with
  | nil => exact h
  | cons u us ih => exact behind ih

theorem lt (h : Below as bs) : as < bs := by
  induction h with
  | here lower => exact .rel lower
  | behind _ ih => exact .cons ih

end Below

theorem ofNat_lt {m n : Nat} (h : m < n) (hn : n < 256) : UInt8.ofNat m < UInt8.ofNat n := by
  rw [UInt8.lt_iff_toNat_lt, UInt8.toNat_ofNat', UInt8.toNat_ofNat']
  omega

/-- A number in digits of six bits, each in a byte that continues a character; the first byte holds
what is left, above an offset. -/
def spread (offset : Nat) : Nat → Nat → List UInt8
  | 0, n => [.ofNat (n + offset)]
  | k + 1, n => spread offset k (n / 64) ++ [.ofNat (n % 64 + 128)]

/-- What is left of a number above its digits. -/
def left : Nat → Nat → Nat
  | 0, n => n
  | k + 1, n => left k (n / 64)

theorem spread_below {offset k m n : Nat} (h : m < n) (hn : left k n + offset < 256) :
    Below (spread offset k m) (spread offset k n) := by
  induction k generalizing m n with
  | zero => exact .here (ofNat_lt (Nat.add_lt_add_right h offset) hn)
  | succ k ih =>
    rw [spread, spread]
    rw [left] at hn
    by_cases hd : m / 64 < n / 64
    · exact (ih hd hn).append _ _
    · have same : m / 64 = n / 64 := by omega
      rw [same]
      exact (Below.here (ofNat_lt (by omega) (by omega))).front _

theorem spread_first (offset k n : Nat) :
    ∃ more, spread offset k n = .ofNat (left k n + offset) :: more := by
  induction k generalizing n with
  | zero => exact ⟨[], rfl⟩
  | succ k ih =>
    obtain ⟨more, h⟩ := ih (n / 64)
    refine ⟨more ++ [.ofNat (n % 64 + 128)], ?_⟩
    rw [spread, h, left, List.cons_append]

theorem spread_below_first {a b j k m n : Nat} (h : left j m + a < left k n + b)
    (hn : left k n + b < 256) : Below (spread a j m) (spread b k n) := by
  obtain ⟨us, hu⟩ := spread_first a j m
  obtain ⟨vs, hv⟩ := spread_first b k n
  rw [hu, hv]
  exact .here (ofNat_lt h hn)

/-- The bytes of a character, by its number. -/
theorem encodeChar_spread (c : Char) :
    (c.toNat < 0x80 ∧ utf8EncodeChar c = spread 0 0 c.toNat) ∨
      (0x80 ≤ c.toNat ∧ c.toNat < 0x800 ∧ utf8EncodeChar c = spread 0xC0 1 c.toNat) ∨
      (0x800 ≤ c.toNat ∧ c.toNat < 0x10000 ∧ utf8EncodeChar c = spread 0xE0 2 c.toNat) ∨
      (0x10000 ≤ c.toNat ∧ c.toNat < 0x110000 ∧ utf8EncodeChar c = spread 0xF0 3 c.toNat) := by
  have hvalid : c.toNat.isValidChar := c.valid
  have high : c.toNat < 0x110000 := by
    obtain h | ⟨-, h⟩ := hvalid <;> omega
  rw [String.utf8EncodeChar.eq_1, Char.toNat_val]
  split_ifs with h1 h2 h3
  · exact .inl ⟨by omega, by simp [spread]⟩
  · refine .inr (.inl ⟨by omega, by omega, ?_⟩)
    rw [Nat.mod_eq_of_lt (by omega : c.toNat / 64 < 32)]
    simp [spread]
  · refine .inr (.inr (.inl ⟨by omega, by omega, ?_⟩))
    rw [Nat.mod_eq_of_lt (by omega : c.toNat / 4096 < 16)]
    simp [spread, Nat.div_div_eq_div_mul]
  · refine .inr (.inr (.inr ⟨by omega, high, ?_⟩))
    rw [Nat.mod_eq_of_lt (by omega : c.toNat / 262144 < 8)]
    simp [spread, Nat.div_div_eq_div_mul]

theorem encodeChar_below {c d : Char} (h : c.toNat < d.toNat) :
    Below (utf8EncodeChar c) (utf8EncodeChar d) := by
  obtain ⟨hc, ec⟩ | ⟨lc, hc, ec⟩ | ⟨lc, hc, ec⟩ | ⟨lc, hc, ec⟩ := encodeChar_spread c <;>
  obtain ⟨hd, ed⟩ | ⟨ld, hd, ed⟩ | ⟨ld, hd, ed⟩ | ⟨ld, hd, ed⟩ := encodeChar_spread d <;>
  rw [ec, ed]
  -- Of two characters of different lengths the first bytes differ.
  all_goals first
    | exact spread_below_first (by simp only [left]; omega) (by simp only [left]; omega)
    | exact spread_below h (by simp only [left]; omega)

theorem encodeAll_lt {cs ds : List Char} (h : cs < ds) :
    cs.flatMap utf8EncodeChar < ds.flatMap utf8EncodeChar := by
  induction h with
  | @nil d ds =>
    obtain ⟨b, bs, hb⟩ := List.exists_cons_of_ne_nil
      (String.utf8EncodeChar_ne_nil : utf8EncodeChar d ≠ [])
    rw [List.flatMap_cons, hb]
    exact .nil
  | rel lower =>
    rw [List.flatMap_cons, List.flatMap_cons]
    exact ((encodeChar_below lower).append _ _).lt
  | cons _ ih =>
    rw [List.flatMap_cons, List.flatMap_cons]
    exact List.append_left_lt ih

/-- A text that comes first is the one with the lower bytes. -/
theorem encode_lt {a b : String} (h : a < b) : encode a < encode b := by
  rw [encode_eq, encode_eq]
  exact encodeAll_lt (String.lt_iff.mp h)

end ClassScript.Text
