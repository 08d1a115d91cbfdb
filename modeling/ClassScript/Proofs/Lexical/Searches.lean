import ClassScript.Lexical.Scanner
import Mathlib.Data.List.Infix
import Mathlib.Data.List.TakeWhile
import Mathlib.Data.Nat.Find

/-! What a scanner relies on in the searches it is given, and what they find of a comment's end and
of a line's. -/
namespace ClassScript

open Scanner (closer)

/-- The searches find the first of what they look for if it is there, and count every occurrence. -/
structure Searches.Lawful (searches : Searches) : Prop where
  byte_some : ∀ {b bytes i}, searches.byte? b bytes = some i → bytes[i]? = some b ∧ b ∉ bytes.take i
  byte_none : ∀ {b bytes}, searches.byte? b bytes = none → b ∉ bytes
  row_some : ∀ {row bytes i}, searches.row? row bytes = some i →
    row <+: bytes.drop i ∧ ∀ j < i, ¬ row <+: bytes.drop j
  row_none : ∀ {row bytes}, searches.row? row bytes = none → ∀ i, ¬ row <+: bytes.drop i
  count_eq : ∀ b bytes, searches.count b bytes = bytes.count b

theorem Searches.plain_lawful : plain.Lawful where
  byte_some := by
    intro b bytes i h
    obtain ⟨hlt, hi, hj⟩ := List.findIdx?_eq_some_iff_getElem.mp h
    refine ⟨by simpa [hlt] using hi, ?_⟩
    intro hm
    obtain ⟨j, hj', he⟩ := List.mem_take_iff_getElem.mp hm
    exact hj j (by omega) (by simp [he])
  byte_none := by
    intro b bytes h hb
    have := List.findIdx?_eq_none_iff.mp h b hb
    simp at this
  row_some := by
    intro row bytes i h
    obtain ⟨hi, -, hj⟩ := List.find?_range_eq_some.mp h
    refine ⟨List.isPrefixOf_iff_prefix.mp hi, ?_⟩
    intro j hlt hp
    have hnone := hj j hlt
    rw [List.isPrefixOf_iff_prefix.mpr hp] at hnone
    cases hnone
  row_none := by
    intro row bytes h i hp
    -- past the end nothing is left, as at the end
    have hend : bytes.drop i = bytes.drop (min i bytes.length) := by
      by_cases hi : i ≤ bytes.length
      · rw [Nat.min_eq_left hi]
      · rw [Nat.min_eq_right (by omega), List.drop_length, List.drop_of_length_le (by omega)]
    have hnone := List.find?_range_eq_none.mp h (min i bytes.length) (by omega)
    rw [← hend, List.isPrefixOf_iff_prefix.mpr hp] at hnone
    cases hnone
  count_eq := fun _ _ => rfl

namespace Piece

theorem closer_prefix_cons (b : UInt8) (rest : List UInt8) :
    closer <+: b :: rest ↔ (b == '*'.toUInt8 && rest.head? == some '/'.toUInt8) = true := by
  cases rest with
  | nil => simp [closer, List.cons_prefix_cons]
  | cons c more =>
    simp only [closer, List.cons_prefix_cons, List.nil_prefix, and_true, List.head?_cons,
      Bool.and_eq_true, beq_iff_eq, Option.some.injEq]
    rw [eq_comm, @eq_comm _ '/'.toUInt8]

theorem closer?_eq_none {bytes : List UInt8} (h : ∀ i, ¬ closer <+: bytes.drop i) :
    closer? bytes = none := by
  induction bytes with
  | nil => rfl
  | cons b rest ih =>
    have hb := h 0
    rw [List.drop_zero, closer_prefix_cons] at hb
    rw [closer?, if_neg hb, ih fun i => h (i + 1), Option.map_none]

theorem closer?_eq_some {bytes : List UInt8} {i : Nat} (hi : closer <+: bytes.drop i)
    (hj : ∀ j < i, ¬ closer <+: bytes.drop j) : closer? bytes = some (i + 2) := by
  induction i generalizing bytes with
  | zero =>
    cases bytes with
    | nil => simp [closer] at hi
    | cons b rest =>
      rw [List.drop_zero, closer_prefix_cons] at hi
      rw [closer?, if_pos hi]
  | succ i ih =>
    cases bytes with
    | nil => simp [closer] at hi
    | cons b rest =>
      have hb := hj 0 (by omega)
      rw [List.drop_zero, closer_prefix_cons] at hb
      rw [closer?, if_neg hb, ih hi fun j h => hj (j + 1) (by omega), Option.map_some]

/-- The first closer, if there is one, ends right after some bytes in which there is none. -/
theorem closer?_cases (bytes : List UInt8) :
    closer? bytes = none ∨
      ∃ body more, bytes = body ++ closer ++ more ∧ closer? bytes = some (body.length + 2) ∧
        ∀ i < body.length, ¬ closer <+: (body ++ closer).drop i := by
  by_cases h : ∃ i, closer <+: bytes.drop i
  · obtain ⟨i, ⟨more, hm⟩, hfirst⟩ :
        ∃ i, closer <+: bytes.drop i ∧ ∀ j < i, ¬ closer <+: bytes.drop j :=
      ⟨Nat.find h, Nat.find_spec h, fun j => Nat.find_min h⟩
    have hlength : (bytes.take i).length = i := by
      have := congrArg List.length hm
      simp only [closer, List.length_append, List.length_cons, List.length_nil,
        List.length_drop] at this
      exact List.length_take_of_le (by omega)
    have hbytes : bytes = bytes.take i ++ closer ++ more := by
      rw [List.append_assoc, hm, List.take_append_drop]
    refine .inr ⟨bytes.take i, more, hbytes, ?_, ?_⟩
    · rw [hlength]
      exact closer?_eq_some ⟨more, hm⟩ hfirst
    · intro j hj hp
      have hinside : bytes.take i ++ closer <+: bytes := ⟨more, hbytes.symm⟩
      exact hfirst j (hlength ▸ hj) (hp.trans (hinside.drop j))
  · exact .inl (closer?_eq_none fun i hi => h ⟨i, hi⟩)

theorem takeWhile_ne_of_notMem {b : UInt8} {bytes : List UInt8} (h : b ∉ bytes) :
    bytes.takeWhile (· != b) = bytes := by
  apply List.takeWhile_eq_self_iff.mpr
  intro c hc
  have : c ≠ b := fun e => h (e ▸ hc)
  simpa using this

theorem takeWhile_ne_of_first {b : UInt8} {bytes : List UInt8} {i : Nat} (hi : bytes[i]? = some b)
    (h : b ∉ bytes.take i) : bytes.takeWhile (· != b) = bytes.take i := by
  obtain ⟨hlt, hb⟩ := List.getElem?_eq_some_iff.mp hi
  have htake : ∀ c ∈ bytes.take i, (c != b) = true := by
    intro c hc
    have : c ≠ b := fun e => h (e ▸ hc)
    simpa using this
  calc bytes.takeWhile (· != b)
      = (bytes.take i ++ b :: bytes.drop (i + 1)).takeWhile (· != b) := by
        rw [← hb, ← List.drop_eq_getElem_cons hlt, List.take_append_drop]
    _ = bytes.take i := by
        rw [List.takeWhile_append_of_pos htake]
        simp

theorem takeWhile_ne_cases (b : UInt8) (bytes : List UInt8) :
    bytes.takeWhile (· != b) = bytes ∨ ∃ more, bytes = bytes.takeWhile (· != b) ++ b :: more := by
  have hsplit : bytes.takeWhile (· != b) ++ bytes.dropWhile (· != b) = bytes :=
    List.takeWhile_append_dropWhile
  cases hd : bytes.dropWhile (· != b) with
  | nil => exact .inl (by simpa [hd] using hsplit)
  | cons c more =>
    have hc : c = b := by
      have := List.head?_dropWhile_not (· != b) bytes
      simpa [hd] using this
    rw [hd, hc] at hsplit
    exact .inr ⟨more, hsplit.symm⟩

end Piece

end ClassScript
