import ClassScript.Proofs.Lexical.Lines
import ClassScript.Proofs.Lexical.Spelling

/-! Tokens by their texts. A token of a scanned source that carries no value is told by its text and
its line alone. -/
namespace ClassScript

open Piece

namespace Symbol

/-- The texts of symbols other than names. -/
def texts : List (String × Symbol) :=
  singles.map (fun (mark, symbol) => (.ofList [mark], symbol)) ++
    (pairs.map (fun ((mark, second), symbol) => (.ofList [mark, second], symbol)) ++ keywords)

/-- The symbol that a text stands for. -/
def ofText (text : String) : Symbol := (texts.lookup text).getD identifier

theorem ofText_of_mem {text : String} {symbol : Symbol} (h : (text, symbol) ∈ texts) :
    ofText text = symbol := by
  have table : ∀ entry ∈ texts, ofText entry.1 = entry.2 := by decide +kernel
  exact table _ h

/-- A text stands for a name unless it is one of the table. -/
theorem mem_of_ofText {text : String} (h : ofText text ≠ identifier) :
    (text, ofText text) ∈ texts := by
  unfold ofText at h ⊢
  cases hl : texts.lookup text with
  | none => exact absurd (by rw [hl]; rfl) h
  | some symbol =>
    obtain ⟨front, back, htexts, -⟩ := List.lookup_eq_some_iff.mp hl
    simp [htexts]

theorem ofText_eq_identifier {text : String} (h : ∀ entry ∈ texts, entry.1 ≠ text) :
    ofText text = identifier := by
  by_contra other
  exact h _ (mem_of_ofText other) rfl

end Symbol

/-- The characters of a name. -/
structure IsNameText (text : List Char) : Prop where
  inner : ∀ c ∈ text, c ≠ ' ' ∧ c ≠ '(' ∧ c ≠ ')'
  first : ∃ c more, text = c :: more ∧ c.isDigit = false ∧ c ≠ '-'

theorem isNameText_decode {bytes : List UInt8} (h : IsWord bytes) :
    IsNameText (Text.decode bytes) where
  inner := by
    have absent (c : Char) (hc : c.toNat < 0x80) (hz : c.toNat ≠ 0)
        (other : isWord (.ofNat c.toNat) = false) : c ∉ Text.decode bytes := by
      intro hm
      have := List.all_eq_true.mp h.2 _ (Text.mem_of_mem_decode hm hc hz)
      rw [other] at this
      cases this
    intro c hc
    refine ⟨?_, ?_, ?_⟩ <;> rintro rfl <;> exact absent _ (by decide) (by decide) (by decide) hc
  first := by
    obtain ⟨first, more, rfl⟩ : ∃ first more, bytes = first :: more := by
      cases bytes with
      | nil => simp [IsWord] at h
      | cons first more => exact ⟨first, more, rfl⟩
    have start := (isWord_cons.mp h).1
    have low := low_of_word (List.all_eq_true.mp h.2 first List.mem_cons_self)
    have code : (Char.ofNat first.toNat).toNat = first.toNat :=
      Text.toNat_ofNat_of_valid (.inl (by omega))
    rw [isWordStart_iff] at start
    refine ⟨_, _, Text.decode_low low more, ?_, ?_⟩
    · rw [← Bool.not_eq_true, Char.isDigit_iff_toNat, code, show '0'.toNat = 48 from rfl,
        show '9'.toNat = 57 from rfl]
      omega
    · intro sign
      have := congrArg Char.toNat sign
      rw [code, show '-'.toNat = 45 from rfl] at this
      omega

/-- The symbol that a token's text spells, and the text of a name. -/
theorem Spells.written {bytes : List UInt8} {s : Symbol} (h : Spells bytes (.symbol s)) :
    Symbol.ofText (Text.decodeString bytes) = s ∧
    (s = .identifier → IsNameText (Text.decode bytes)) := by
  generalize hkind : TokenKind.symbol s = kind at h
  cases h with
  | @single mark symbol entry =>
    cases hkind
    have table : ∀ entry ∈ Symbol.singles, Symbol.ofText (Text.decodeString [entry.1.toUInt8]) =
        entry.2 ∧ entry.2 ≠ .identifier := by decide +kernel
    exact ⟨(table _ entry).1, fun name => absurd name (table _ entry).2⟩
  | @pair mark second symbol entry =>
    cases hkind
    have table : ∀ entry ∈ Symbol.pairs,
        Symbol.ofText (Text.decodeString [entry.1.1.toUInt8, entry.1.2.toUInt8]) = entry.2 ∧
          entry.2 ≠ .identifier := by decide +kernel
    exact ⟨(table _ entry).1, fun name => absurd name (table _ entry).2⟩
  | whole => cases hkind
  | decimal => cases hkind
  | @keyword word symbol entry =>
    cases hkind
    have table : ∀ entry ∈ Symbol.keywords, entry ∈ Symbol.texts ∧ entry.2 ≠ .identifier := by
      decide +kernel
    rw [Text.decodeString_encode]
    exact ⟨Symbol.ofText_of_mem (table _ entry).1, fun name => absurd name (table _ entry).2⟩
  | name word free =>
    cases hkind
    refine ⟨Symbol.ofText_eq_identifier ?_, fun _ => isNameText_decode word⟩
    have table : ∀ entry ∈ Symbol.texts, entry ∈ Symbol.keywords ∨
        ¬ IsWord (Text.encode entry.1) := by
      decide +kernel
    intro entry hm text
    have spelled := Text.encode_decode_low fun b hb => low_of_word (List.all_eq_true.mp word.2 b hb)
    rw [← text] at spelled
    rcases table entry hm with keyword | other
    · exact free entry keyword spelled
    · rw [spelled] at other
      exact other word

theorem Piece.cut_rule {source : List UInt8} {piece : Piece} (h : piece ∈ cut source) :
    ∃ rest, CutBefore piece rest := by
  generalize hpieces : cut source = pieces at h
  induction pieces generalizing source with
  | nil => cases h
  | cons first pieces ih =>
    obtain ⟨rest, -, rule, hrest⟩ := cut_eq_cons hpieces
    rcases List.mem_cons.mp h with rfl | h
    · exact ⟨rest, rule⟩
    · exact ih hrest h

theorem Item.mem_ofPieces {line : Nat} {pieces : List Piece} {t : Token}
    (h : .token t ∈ ofPieces line pieces) : t.is .endOfSource ∨
      ∃ piece ∈ pieces, piece.part = .token t.kind ∧ t.lexeme = Text.decodeString piece.span := by
  induction pieces generalizing line with
  | nil =>
    simp only [ofPieces, List.mem_singleton, Item.token.injEq] at h
    subst h
    exact .inl rfl
  | cons piece pieces ih =>
    have behind {line : Nat} (h : .token t ∈ ofPieces line pieces) : t.is .endOfSource ∨
        ∃ found ∈ piece :: pieces, found.part = .token t.kind ∧
          t.lexeme = Text.decodeString found.span := by
      rcases ih h with last | ⟨found, hm, said⟩
      · exact .inl last
      · exact .inr ⟨found, List.mem_cons_of_mem piece hm, said⟩
    unfold ofPieces at h
    cases hi : ofPiece? line piece with
    | none =>
      rw [hi] at h
      exact behind h
    | some item =>
      rw [hi] at h
      rcases List.mem_cons.mp h with rfl | h
      · exact .inr ⟨piece, List.mem_cons_self, ofPiece?_token hi⟩
      · exact behind h

/-- What a token says is in its text: its symbol, or a name where that is none. -/
structure Token.Written (t : Token) : Prop where
  symbol : ∀ s, t.kind = .symbol s → Symbol.ofText t.lexeme = s
  name : t.is .identifier → IsNameText t.lexeme.toList

/-- Every token of a source but its end is told by its text. -/
theorem tokens_written {source : List UInt8} {ts : List Token} (h : tokens source = .ok ts) :
    ∀ t ∈ ts, ¬ t.is .endOfSource → t.Written := by
  intro t ht inside
  have hm : .token t ∈ Item.ofSource source := tokens_eq_ok_iff.mp h ▸ List.mem_map_of_mem ht
  obtain ⟨⟨part, span⟩, hp, rfl, lexeme⟩ := (Item.mem_ofPieces hm).resolve_left inside
  obtain ⟨rest, rule⟩ := Piece.cut_rule hp
  have spells {s : Symbol} (hs : t.kind = .symbol s) : Spells span (.symbol s) := by
    rw [hs] at rule
    exact rule.spells (by rintro value ⟨⟩)
  constructor
  · intro s hs
    rw [lexeme]
    exact (spells hs).written.1
  · intro name
    rw [lexeme, Text.decodeString, String.toList_ofList]
    exact (spells (Token.is_iff.mp name)).written.2 rfl

end ClassScript
