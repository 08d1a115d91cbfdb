import ClassScript.Proofs.Lexical.Cuts
import ClassScript.Proofs.Text.Ascii

/-! The texts of tokens other than strings: marks, numerals and words. A token that a source is cut
into has the longest of them that stands there. -/
namespace ClassScript

open Piece

namespace Symbol

/-- A word stands for the symbol of its keyword, and for a name if it is none. -/
theorem ofWord_eq_iff {word : String} {symbol : Symbol} : ofWord word = symbol ↔
    (word, symbol) ∈ keywords ∨ symbol = identifier ∧ ∀ entry ∈ keywords, entry.1 ≠ word := by
  have table : ∀ entry ∈ keywords, keywords.lookup entry.1 = some entry.2 := by decide +kernel
  rw [ofWord]
  cases h : keywords.lookup word with
  | none =>
    have free : ∀ entry ∈ keywords, entry.1 ≠ word := by
      rintro entry hm rfl
      rw [table entry hm] at h
      cases h
    constructor
    · rintro rfl
      exact .inr ⟨rfl, free⟩
    · rintro (hm | ⟨rfl, -⟩)
      · exact absurd rfl (free _ hm)
      · rfl
  | some other =>
    have hm : (word, other) ∈ keywords := by
      obtain ⟨front, back, hkeywords, -⟩ := List.lookup_eq_some_iff.mp h
      simp [hkeywords]
    constructor
    · rintro rfl
      exact .inl hm
    · rintro (hm' | ⟨-, free⟩)
      · have := table _ hm'
        rw [h, Option.some.injEq] at this
        exact this
      · exact absurd rfl (free _ hm)

end Symbol

/-- A letter or an underscore, and letters, underscores and digits behind it. -/
def IsWord (bytes : List UInt8) : Prop :=
  bytes.head?.any isWordStart = true ∧ bytes.all isWord = true

instance (bytes : List UInt8) : Decidable (IsWord bytes) := inferInstanceAs (Decidable (_ ∧ _))

/-- Digits, one at least. -/
def IsDigits (bytes : List UInt8) : Prop := bytes ≠ [] ∧ ∀ b ∈ bytes, Number.isDigit b = true

/-- The texts of tokens other than strings, with the kinds of the tokens. -/
inductive Spells : List UInt8 → TokenKind → Prop
  | single {mark : Char} {symbol : Symbol} (entry : (mark, symbol) ∈ Symbol.singles) :
      Spells [mark.toUInt8] (.symbol symbol)
  | pair {mark second : Char} {symbol : Symbol} (entry : ((mark, second), symbol) ∈ Symbol.pairs) :
      Spells [mark.toUInt8, second.toUInt8] (.symbol symbol)
  | whole {digits : List UInt8} (h : IsDigits digits) :
      Spells digits (.number (Number.ofNumeral digits []))
  | decimal {digits places : List UInt8} (h : IsDigits digits) (h' : IsDigits places) :
      Spells (digits ++ '.'.toUInt8 :: places) (.number (Number.ofNumeral digits places))
  | keyword {word : String} {symbol : Symbol} (entry : (word, symbol) ∈ Symbol.keywords) :
      Spells (Text.encode word) (.symbol symbol)
  | name {bytes : List UInt8} (h : IsWord bytes)
      (free : ∀ entry ∈ Symbol.keywords, Text.encode entry.1 ≠ bytes) :
      Spells bytes (.symbol .identifier)

/-- The bytes are the longest text of a token, other than a string, that the remaining ones begin
with. -/
def Longest (bytes remaining : List UInt8) : Prop :=
  bytes <+: remaining ∧ (∃ kind, Spells bytes kind) ∧
    ∀ other kind, other <+: remaining → Spells other kind → other.length ≤ bytes.length

section Spells

variable {first : UInt8} {more rest : List UInt8} {kind : TokenKind}

theorem keyword_word {word : String} {symbol : Symbol} (entry : (word, symbol) ∈ Symbol.keywords) :
    IsWord (Text.encode word) := by
  have table : ∀ entry ∈ Symbol.keywords, IsWord (Text.encode entry.1) := by decide +kernel
  exact table _ entry

theorem isWord_cons : IsWord (first :: more) ↔
    isWordStart first = true ∧ ∀ b ∈ more, isWord b = true := by
  have hword : isWordStart first = true → isWord first = true := by
    intro h
    simp [isWord, h]
  simp only [IsWord, List.head?_cons, Option.any_some, List.all_cons, Bool.and_eq_true,
    List.all_eq_true]
  exact ⟨fun h => ⟨h.1, h.2.2⟩, fun h => ⟨h.1, hword h.1, h.2⟩⟩

theorem isDigits_cons :
    IsDigits (first :: more) ↔ ∀ b ∈ first :: more, Number.isDigit b = true := by
  simp [IsDigits]

theorem Spells.ne_nil {bytes : List UInt8} (h : Spells bytes kind) : bytes ≠ [] := by
  cases h with
  | whole h => exact h.1
  | keyword entry =>
    intro h
    have := keyword_word entry
    simp [h, IsWord] at this
  | name h =>
    rintro rfl
    simp [IsWord] at h
  | _ => simp

/-- The first byte of a token's text says of what sort it is. -/
theorem Spells.sorts (h : Spells (first :: more) kind) :
    (Number.isDigit first = true ∧ ((∀ b ∈ more, Number.isDigit b = true) ∨
      ∃ digits places, more = digits ++ '.'.toUInt8 :: places ∧
        (∀ b ∈ digits, Number.isDigit b = true) ∧ IsDigits places)) ∨
    (isWordStart first = true ∧ ∀ b ∈ more, isWord b = true) ∨
    (Bare first ∧ ((more = [] ∧ ∃ entry ∈ Symbol.singles, entry.1.toUInt8 = first) ∨
      ∃ entry ∈ Symbol.pairs, entry.1.1.toUInt8 = first ∧ more = [entry.1.2.toUInt8])) := by
  generalize hbytes : first :: more = bytes at h
  cases h with
  | single entry =>
    obtain ⟨rfl, rfl⟩ := List.cons.inj hbytes
    exact .inr (.inr ⟨bare_single entry, .inl ⟨rfl, _, entry, rfl⟩⟩)
  | pair entry =>
    obtain ⟨rfl, rfl⟩ := List.cons.inj hbytes
    exact .inr (.inr ⟨bare_pair entry, .inr ⟨_, entry, rfl, rfl⟩⟩)
  | whole h =>
    subst hbytes
    obtain ⟨hfirst, hmore⟩ := List.forall_mem_cons.mp h.2
    exact .inl ⟨hfirst, .inl hmore⟩
  | @decimal digits places h h' =>
    obtain ⟨digit, digits, rfl⟩ := List.exists_cons_of_ne_nil h.1
    obtain ⟨rfl, rfl⟩ := List.cons.inj hbytes
    obtain ⟨hfirst, hmore⟩ := List.forall_mem_cons.mp h.2
    exact .inl ⟨hfirst, .inr ⟨digits, places, rfl, hmore, h'⟩⟩
  | keyword entry =>
    have h := keyword_word entry
    rw [← hbytes, isWord_cons] at h
    exact .inr (.inl h)
  | name h =>
    rw [← hbytes, isWord_cons] at h
    exact .inr (.inl h)

theorem Spells.of_digit (h : Spells (first :: more) kind) (hdigit : Number.isDigit first = true) :
    (∀ b ∈ more, Number.isDigit b = true) ∨
      ∃ digits places, more = digits ++ '.'.toUInt8 :: places ∧
        (∀ b ∈ digits, Number.isDigit b = true) ∧ IsDigits places := by
  obtain ⟨-, h⟩ | ⟨hword, -⟩ | ⟨bare, -⟩ := h.sorts
  · exact h
  · simp [digit_not_word hword] at hdigit
  · simp [bare.digit] at hdigit

theorem Spells.of_word (h : Spells (first :: more) kind) (hword : isWordStart first = true) :
    ∀ b ∈ more, isWord b = true := by
  obtain ⟨hdigit, -⟩ | ⟨-, h⟩ | ⟨bare, -⟩ := h.sorts
  · simp [digit_not_word hword] at hdigit
  · exact h
  · simp [bare.word] at hword

theorem Spells.of_bare (h : Spells (first :: more) kind) (bare : Bare first) :
    (more = [] ∧ ∃ entry ∈ Symbol.singles, entry.1.toUInt8 = first) ∨
      ∃ entry ∈ Symbol.pairs, entry.1.1.toUInt8 = first ∧ more = [entry.1.2.toUInt8] := by
  obtain ⟨hdigit, -⟩ | ⟨hword, -⟩ | ⟨-, h⟩ := h.sorts
  · simp [bare.digit] at hdigit
  · simp [bare.word] at hword
  · exact h

theorem Spells.not_quote (h : Spells (first :: more) kind) : first ≠ '"'.toUInt8 := by
  rintro rfl
  obtain ⟨hdigit, -⟩ | ⟨hword, -⟩ | ⟨bare, -⟩ := h.sorts
  · cases hdigit
  · cases hword
  · exact bare.quote rfl

end Spells

namespace Piece

section CutBefore

variable {kind : TokenKind} {span rest : List UInt8}

theorem CutBefore.spells (h : CutBefore ⟨.token kind, span⟩ rest)
    (noString : ∀ value, kind ≠ .string value) : Spells span kind := by
  have hspan := Text.encode_decode_low (h.low_of_token noString)
  cases h with
  | string => exact absurd rfl (noString _)
  | whole digits => exact .whole (isDigits_cons.mpr digits)
  | decimal digits digits' => exact .decimal (isDigits_cons.mpr digits) (isDigits_cons.mpr digits')
  | pair entry => exact .pair entry
  | single entry => exact .single entry
  | @word first more _ start inside =>
    obtain entry | ⟨hname, free⟩ := Symbol.ofWord_eq_iff.mp rfl
    · have h := Spells.keyword entry
      rwa [hspan] at h
    · rw [hname]
      refine .name (isWord_cons.mpr ⟨start, inside⟩) ?_
      intro entry hm hbytes
      rw [← hspan] at hbytes
      exact free entry hm (Text.encode_injective hbytes)

/-- No other token's text that stands here is longer. -/
theorem CutBefore.longest (h : CutBefore ⟨.token kind, span⟩ rest)
    (noString : ∀ value, kind ≠ .string value) : Longest span (span ++ rest) := by
  refine ⟨List.prefix_append span rest, ⟨kind, h.spells noString⟩, ?_⟩
  rintro other kind' ⟨after, hwhole⟩ hother
  obtain ⟨first', other, rfl⟩ := List.exists_cons_of_ne_nil hother.ne_nil
  cases h with
  | string => exact absurd rfl (noString _)
  | @whole first more _ digits ends pointless =>
    obtain ⟨rfl, hafter⟩ : first' = first ∧ other ++ after = more ++ rest := by simpa using hwhole
    obtain ⟨hfirst, hmore⟩ := List.forall_mem_cons.mp digits
    obtain hall | ⟨digits', places', rfl, hdigits', hplaces'⟩ := hother.of_digit hfirst
    · simpa using ends.length_le hafter hall
    · -- behind the digits there is no point with a digit behind it
      rw [List.append_assoc] at hafter
      obtain ⟨-, rfl⟩ := ends.unique hmore (Stops.cons rfl) hdigits' hafter
      obtain ⟨place, places', rfl⟩ := List.exists_cons_of_ne_nil hplaces'.1
      simp [places, hplaces'.2 place] at pointless
  | @decimal first place more places' _ digits digits' ends =>
    obtain ⟨rfl, hafter⟩ : first' = first ∧
        other ++ after = more ++ ('.'.toUInt8 :: (place :: places' ++ rest)) := by
          simpa using hwhole
    obtain ⟨hfirst, hmore⟩ := List.forall_mem_cons.mp digits
    have hpoint : Stops Number.isDigit ('.'.toUInt8 :: (place :: places' ++ rest)) := .cons rfl
    obtain hall | ⟨digits'', places'', rfl, hdigits, hplaces⟩ := hother.of_digit hfirst
    · have := hpoint.length_le hafter hall
      simp
      omega
    · rw [List.append_assoc] at hafter
      obtain ⟨rfl, hrest⟩ := hpoint.unique hmore (Stops.cons rfl) hdigits hafter
      have := ends.length_le (List.cons.inj hrest).2 hplaces.2
      simp at this ⊢
      omega
  | @word first more _ start inside ends =>
    obtain ⟨rfl, hafter⟩ : first' = first ∧ other ++ after = more ++ rest := by simpa using hwhole
    simpa using ends.length_le hafter (hother.of_word start)
  | @pair mark second symbol entry =>
    obtain ⟨rfl, -⟩ := List.cons.inj hwhole
    obtain ⟨rfl, -⟩ | ⟨_, -, -, rfl⟩ := hother.of_bare (bare_pair entry) <;> simp
  | @single mark symbol _ entry alone =>
    obtain ⟨rfl, hafter⟩ := List.cons.inj hwhole
    obtain ⟨rfl, -⟩ | ⟨entry', hm, hmark, rfl⟩ := hother.of_bare (bare_single entry)
    · simp
    · exact absurd (congrArg List.head? hafter.symm) (alone entry' hm hmark)

end CutBefore

end Piece

end ClassScript
