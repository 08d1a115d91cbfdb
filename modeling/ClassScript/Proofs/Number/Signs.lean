import ClassScript.Number.Numeral
import ClassScript.Proofs.Number.Intervals
import Mathlib

/-! The signs of numbers. What is read from a numeral has none, also where it is zero or infinite:
none of the operations that lead to it sets the sign of a double unless one of its operands has
one. -/
namespace ClassScript.Number

open Float.Model Float.Model.UnpackedFloat

/-- The sign is not set. A NaN has none. -/
def Unsigned : UnpackedFloat → Prop
  | .infinity s | .zero s | .finite s .. => s = .positive
  | .notANumber => True

section Unsigned

variable {spec : Format} {f g : UnpackedFloat}

theorem unsigned_roundWithAccuracy (m : Nat) (e : Int) (accuracy : Accuracy) :
    Unsigned (roundWithAccuracy spec .positive m e accuracy) := by
  simp only [roundWithAccuracy]
  split <;> rfl

theorem unsigned_ofNat (n : Nat) : Unsigned (UnpackedFloat.ofNat spec n) := by
  rw [UnpackedFloat.ofNat, UnpackedFloat.ofInt, UnpackedFloat.normalize]
  split
  case h_1 negative =>
    rw [Int.compare_eq_lt] at negative
    omega
  case h_2 => rfl
  case h_3 => exact unsigned_roundWithAccuracy ..

theorem unsigned_mul (hf : Unsigned f) (hg : Unsigned g) :
    Unsigned (UnpackedFloat.mul spec f g) := by
  cases f <;> cases g <;> cases hf <;> cases hg <;>
    first | trivial | exact unsigned_roundWithAccuracy ..

theorem unsigned_div (hf : Unsigned f) (hg : Unsigned g) :
    Unsigned (UnpackedFloat.div spec f g) := by
  cases f <;> cases g <;> cases hf <;> cases hg <;>
    first | trivial | exact unsigned_roundWithAccuracy ..

theorem unsigned_ofScientific (m : Nat) (e : Int) :
    Unsigned (UnpackedFloat.ofScientific spec m e) := by
  unfold UnpackedFloat.ofScientific
  split_ifs
  · rfl
  · rfl
  · rfl
  · exact unsigned_mul rfl rfl
  · exact unsigned_div rfl rfl

theorem unpackSign_pack (h : Unsigned f) : unpackSign (UnpackedFloat.pack spec f) = 0#1 := by
  cases f with
  | notANumber => exact unpackSign_packComponents ..
  | infinity | zero =>
    cases h
    exact unpackSign_packComponents ..
  | finite =>
    cases h
    simp only [UnpackedFloat.pack]
    split_ifs <;> exact unpackSign_packComponents ..

theorem unsigned_unpack {word : BitVec spec.numBits} (h : unpackSign word = 0#1) :
    Unsigned (UnpackedFloat.unpack spec word) := by
  have sign : Sign.ofBitVec (unpackSign word) = .positive := by rw [h]; rfl
  simp only [UnpackedFloat.unpack, sign]
  split_ifs <;> trivial

end Unsigned

/-- The sign bit is not set. -/
def SignFree (x : Float) : Prop := @unpackSign .binary64 x.toBits.toBitVec = 0#1

variable {x y : Float} {e : Exact}

theorem signFree_ofModel_pack {f : UnpackedFloat} (h : Unsigned f) :
    SignFree ⟨Float.Model.pack f⟩ :=
  unpackSign_pack h

theorem SignFree.unsigned (h : SignFree x) : Unsigned x.toModel.unpack := unsigned_unpack h

theorem SignFree.mul (hx : SignFree x) (hy : SignFree y) : SignFree (x * y) :=
  signFree_ofModel_pack (unsigned_mul hx.unsigned hy.unsigned)

theorem SignFree.div (hx : SignFree x) (hy : SignFree y) : SignFree (x / y) :=
  signFree_ofModel_pack (unsigned_div hx.unsigned hy.unsigned)

theorem signFree_toFloat (n : UInt64) : SignFree n.toFloat :=
  signFree_ofModel_pack (unsigned_ofNat _)

theorem signFree_power (i : Nat) (h : i < Float.exactlyRepresentablePowersOfTen.size) :
    SignFree Float.exactlyRepresentablePowersOfTen[i] := by
  have table : ∀ x ∈ Float.exactlyRepresentablePowersOfTen.toList,
      @unpackSign .binary64 x.toBits.toBitVec = 0#1 := by decide +kernel
  exact table _ (by simp)

theorem signFree_ofScientific (m : Nat) (s : Bool) (e : Nat) :
    SignFree (Float.ofScientific m s e) := by
  have fast := signFree_toFloat m.toUInt64
  unfold Float.ofScientific
  split
  · cases s
    · exact fast.mul (signFree_power e _)
    · exact fast.div (signFree_power e _)
  · exact signFree_ofModel_pack (unsigned_ofScientific ..)

/-- What is read from a numeral has no sign. -/
theorem signFree_ofNumeral (whole places : List UInt8) : SignFree (ofNumeral whole places) :=
  signFree_ofScientific ..

theorem SignFree.negative (h : SignFree x) (he : Exact.ofFloat? x = some e) :
    e.negative = false := by
  have bit := congrArg BitVec.toNat h
  have bound := x.toBits.toNat_lt
  rw [unpackSign_def, BitVec.extractLsb'_toNat, Nat.shiftRight_eq_div_pow,
    UInt64.toNat_toBitVec] at bit
  rw [Exact.toBits_of_ofFloat? he, Exact.word] at bit bound
  cases hn : e.negative with
  | false => rfl
  | true =>
    rw [hn, if_pos rfl, Exact.signBit_eq] at bit bound
    change _ / 9223372036854775808 % 2 = 0 at bit
    omega

end ClassScript.Number
