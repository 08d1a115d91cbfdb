import ClassScript.Proofs.Lexical.Pieces
import Mathlib.Tactic.SplitIfs

/-! The names of a scanned source are words of their own: no token that stands for a name is spelled
like a keyword. -/
namespace ClassScript

namespace Token

/-- A token that stands for a name has the spelling of one. -/
def Spelled (t : Token) : Prop := t.is .identifier → Symbol.ofWord t.lexeme = .identifier

/-- A token that names a variable, a function, a class or a parameter. -/
def IsName (t : Token) : Prop := Symbol.ofWord t.lexeme = .identifier

theorem IsName.ne_this {t : Token} (h : t.IsName) : t.lexeme ≠ "this" := by
  intro he
  rw [IsName, he] at h
  exact absurd h (by decide)

theorem IsName.ne_super {t : Token} (h : t.IsName) : t.lexeme ≠ "super" := by
  intro he
  rw [IsName, he] at h
  exact absurd h (by decide)

end Token

namespace Piece

/-- Only a word becomes a name, and then it is no keyword. -/
theorem head_identifier {first : UInt8} {rest : List UInt8}
    (h : (head first rest).1 = .token (.symbol .identifier)) :
    Symbol.ofWord (Text.decodeString (first :: rest.take (head first rest).2)) = .identifier := by
  have hw : rest.takeWhile isWord = rest.take (rest.takeWhile isWord).length :=
    List.prefix_iff_eq_take.mp (List.takeWhile_prefix isWord)
  simp only [head] at h ⊢
  split_ifs at h ⊢
  · cases hc : closer? rest.tail <;> simp [hc] at h
  · simp at h
  · simp at h
  · rw [← hw]
    simpa using h
  all_goals
    cases ho : operator? first rest with
    | none => simp [ho] at h
    | some found =>
      obtain ⟨s, n⟩ := found
      simp only [ho, Part.token.injEq, TokenKind.symbol.injEq] at h
      exact absurd h (operator?_ne .identifier (by decide) (by decide) ho)

theorem cut_identifier (source : List UInt8) :
    ∀ piece ∈ cut source, piece.part = .token (.symbol .identifier) →
      Symbol.ofWord (Text.decodeString piece.span) = .identifier := by
  fun_induction cut source with
  | case1 => simp
  | case2 first rest part length hh ih =>
    intro piece hm hp
    rcases List.mem_cons.mp hm with rfl | hm
    · have h := @head_identifier first rest
      rw [hh] at h
      exact h hp
    · exact ih piece hm hp

end Piece

theorem Item.ofPieces_spelled {line : Nat} {pieces : List Piece}
    (h : ∀ piece ∈ pieces, piece.part = .token (.symbol .identifier) →
      Symbol.ofWord (Text.decodeString piece.span) = .identifier) :
    ∀ t, .token t ∈ Item.ofPieces line pieces → t.Spelled := by
  induction pieces generalizing line with
  | nil =>
    intro t ht
    simp only [ofPieces, List.mem_singleton, Item.token.injEq] at ht
    subst ht
    intro hi
    simp [Token.is] at hi
  | cons piece pieces ih =>
    intro t ht
    have tail := @ih (line + Piece.lineEnds piece.span) (fun p hp => h p (by simp [hp])) t
    unfold ofPieces at ht
    cases hi : ofPiece? line piece with
    | none => rw [hi] at ht; exact tail ht
    | some item =>
      rw [hi] at ht
      rcases List.mem_cons.mp ht with rfl | ht
      · intro hid
        obtain ⟨part, span⟩ := piece
        cases part with
        | blank => simp [ofPiece?] at hi
        | comment => simp [ofPiece?] at hi
        | fault cause => cases cause <;> simp [ofPiece?] at hi
        | token kind =>
          simp only [ofPiece?, Option.some.injEq, Item.token.injEq] at hi
          subst hi
          have hk : kind = .symbol .identifier := Token.is_iff.mp hid
          exact h ⟨.token kind, span⟩ (by simp) (by rw [hk])
      · exact tail ht

/-- The tokens of a source stand for names only where their text is no keyword. -/
theorem tokens_spelled {source : List UInt8} {ts : List Token} (h : tokens source = .ok ts) :
    ∀ t ∈ ts, t.Spelled := by
  intro t ht
  have hm : .token t ∈ Item.ofSource source := tokens_eq_ok_iff.mp h ▸ List.mem_map_of_mem ht
  exact Item.ofPieces_spelled (Piece.cut_identifier source) t hm

end ClassScript
