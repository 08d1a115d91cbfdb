import ClassScript.Proofs.Lexical.Lines
import ClassScript.Proofs.Text.Ascii

/-! Tokens written out. A token's text is cut off again as that token wherever a blank stands behind
it, or nothing. So the texts of the tokens of a source, written with any blanks between them, are
scanned to these tokens again. -/
namespace ClassScript

open Piece

/-- Some blanks: spaces, tabs, carriage returns and line ends. -/
def IsGap (text : String) : Prop := text ≠ "" ∧ ∀ c ∈ text.toList, c ∈ [' ', '\t', '\r', '\n']

/-- The text is the words one after another, with blanks between any two of them. -/
inductive Spaced : List String → String → Prop
  | none : Spaced [] ""
  | one (word : String) : Spaced [word] word
  | more {word next gap text : String} {words : List String} (hgap : IsGap gap)
      (h : Spaced (next :: words) text) : Spaced (word :: next :: words) (word ++ gap ++ text)

theorem IsGap.encode {gap : String} (h : IsGap gap) :
    ∃ b blanks, Text.encode gap = b :: blanks ∧ ∀ b' ∈ b :: blanks, isBlank b' = true := by
  obtain ⟨hne, hblanks⟩ := h
  have table : [' ', '\t', '\r', '\n'].all fun c => (String.utf8EncodeChar c).all isBlank := by
    decide
  have hall : ∀ b ∈ Text.encode gap, isBlank b = true := by
    intro b hb
    rw [Text.encode_eq] at hb
    obtain ⟨c, hc, hbytes⟩ := List.mem_flatMap.mp hb
    exact List.all_eq_true.mp (List.all_eq_true.mp table c (hblanks c hc)) b hbytes
  cases hbytes : Text.encode gap with
  | nil => exact absurd (Text.encode_injective (hbytes.trans Text.encode_empty.symm)) hne
  | cons b blanks => exact ⟨b, blanks, rfl, hbytes ▸ hall⟩

namespace Piece

/-- The text of a string has no quote in it but those at its ends, also where the string had bytes
that are no text. -/
theorem string_again {body : List UInt8} (inside : '"'.toUInt8 ∉ body) (rest : List UInt8) :
    CutBefore ⟨.token (.string (Text.decodeString body)),
      Text.encode (Text.decodeString ('"'.toUInt8 :: (body ++ ['"'.toUInt8])))⟩ rest := by
  have hquote : Text.decode ('"'.toUInt8 :: (body ++ ['"'.toUInt8])) =
      '"' :: (Text.decode body ++ ['"']) := by
    rw [Text.decode_low (by decide), Text.decode_append_low body (by decide), Text.decode]
    rfl
  have hspan : Text.encode (Text.decodeString ('"'.toUInt8 :: (body ++ ['"'.toUInt8]))) =
      '"'.toUInt8 :: (Text.encode (Text.decodeString body) ++ ['"'.toUInt8]) := by
    rw [Text.decodeString, hquote, Text.encode_ofList, Text.decodeString, Text.encode_ofList,
      List.flatMap_cons, List.flatMap_append]
    rfl
  have hinside : '"'.toUInt8 ∉ Text.encode (Text.decodeString body) := by
    intro h
    have hchar := Text.mem_of_mem_encode h (by decide)
    rw [Text.decodeString, String.toList_ofList] at hchar
    exact inside (Text.mem_of_mem_decode hchar (by decide) (by decide))
  have h := CutBefore.string hinside rest
  rwa [Text.decodeString_encode, ← hspan] at h

/-- The text of a token is cut off as that token where a blank stands behind it, or nothing. -/
theorem CutBefore.again {kind : TokenKind} {span rest gap : List UInt8}
    (h : CutBefore ⟨.token kind, span⟩ rest) (hgap : Stops (!isBlank ·) gap) :
    CutBefore ⟨.token kind, Text.encode (Text.decodeString span)⟩ gap := by
  obtain hwraps | low | ⟨first, more, hpiece, -⟩ := h.low
  · cases h with
    | string inside => exact string_again inside gap
    | _ => exact hwraps.elim
  · rw [Text.encode_decode_low low]
    exact h.gap hgap
  · cases hpiece

end Piece

/-- A text that is scanned to a token wherever a blank stands behind it, or nothing. -/
structure Token.StandsAlone (t : Token) : Prop where
  inner : t.kind ≠ .symbol .endOfSource
  cutBefore : ∀ gap, Stops (!isBlank ·) gap → CutBefore ⟨.token t.kind, Text.encode t.lexeme⟩ gap

namespace Item

/-- The tokens that the pieces of a source are stand alone. -/
theorem standsAlone_of_said {line : Nat} {source : List UInt8} {t : Token}
    (h : .token t ∈ said line (cut source)) : t.StandsAlone := by
  generalize hcut : cut source = pieces at h
  induction pieces generalizing source line with
  | nil => cases h
  | cons piece pieces ih =>
    obtain ⟨rest, rfl, hpiece, hrest⟩ := cut_eq_cons hcut
    rw [said] at h
    rcases List.mem_append.mp h with h | h
    · obtain ⟨part, span⟩ := piece
      obtain ⟨rfl, hlexeme⟩ := ofPiece?_token (Option.mem_toList.mp h)
      exact ⟨hpiece.sound, fun gap hgap => hlexeme ▸ hpiece.again hgap⟩
    · exact ih hrest h

theorem said_blanks {blanks : List UInt8} (h : ∀ b ∈ blanks, isBlank b = true) (line : Nat)
    (rest : List UInt8) :
    said line (cut (blanks ++ rest)) = said (line + lineEnds blanks) (cut rest) := by
  induction blanks generalizing line with
  | nil => rfl
  | cons b blanks ih =>
    obtain ⟨hb, hblanks⟩ := List.forall_mem_cons.mp h
    have hcut := (CutBefore.blank hb (blanks ++ rest)).cut_eq
    rw [List.singleton_append] at hcut
    rw [List.cons_append, hcut, said, ih hblanks, Nat.add_assoc, ← lineEnds_append]
    rfl

/-- A token that stands alone is what its text says. -/
theorem said_alone {t : Token} (alone : t.StandsAlone) {gap : List UInt8}
    (hgap : Stops (!isBlank ·) gap) (line : Nat) :
    ∃ line', said line (cut (Text.encode t.lexeme ++ gap)) =
      .token { t with line := line' } :: said line' (cut gap) := by
  refine ⟨line + lineEnds (Text.encode t.lexeme), ?_⟩
  have hcut := (alone.cutBefore gap hgap).cut_eq
  rw [hcut, said, ofPiece?, Text.decodeString_encode]
  rfl

/-- Tokens that stand alone are what their texts say with blanks between them. -/
theorem said_spaced {ts : List Token} (alone : ∀ t ∈ ts, t.StandsAlone) {written : String}
    (h : Spaced (ts.map Token.lexeme) written) (line : Nat) :
    ∃ again : List Token, said line (cut (Text.encode written)) = again.map .token ∧
      again.map Token.kind = ts.map Token.kind ∧ again.map Token.lexeme = ts.map Token.lexeme := by
  induction ts generalizing written line with
  | nil =>
    cases h
    refine ⟨[], ?_, rfl, rfl⟩
    rw [Text.encode_empty, cut_nil]
    rfl
  | cons t ts ih =>
    obtain ⟨halone, hrest⟩ := List.forall_mem_cons.mp alone
    cases ts with
    | nil =>
      cases h
      obtain ⟨line', hsaid⟩ := said_alone halone Stops.nil line
      rw [List.append_nil, cut_nil] at hsaid
      exact ⟨[{ t with line := line' }], hsaid, rfl, rfl⟩
    | cons u ts =>
      cases h with
      | @more _ _ gap text _ hgap h =>
      obtain ⟨b, blanks, hbytes, hblanks⟩ := hgap.encode
      have hstops : Stops (!isBlank ·) (b :: blanks ++ Text.encode text) :=
        .cons (by simp [hblanks b])
      obtain ⟨line', hsaid⟩ := said_alone halone hstops line
      obtain ⟨again, hagain, hkinds, hlexemes⟩ := ih hrest h (line' + lineEnds (b :: blanks))
      refine ⟨{ t with line := line' } :: again, ?_, ?_, ?_⟩
      · rw [String.append_assoc, Text.encode_append, Text.encode_append, hbytes, hsaid,
          said_blanks hblanks, hagain, List.map_cons]
      · rw [List.map_cons, List.map_cons, hkinds]
      · rw [List.map_cons, List.map_cons, hlexemes]

end Item

/-- What is scanned from a source is scanned again from the texts of its tokens, whatever blanks
they are written with: tokens of the same kinds, with the values of literals, and with the same
texts, and then the end. -/
theorem tokens_respaced {source : List UInt8} {ts : List Token} (h : tokens source = .ok ts) :
    ∃ inner, ts = inner ++ [Scanner.endToken source] ∧
      (∀ t ∈ inner, t.kind ≠ .symbol .endOfSource) ∧
      ∀ written, Spaced (inner.map Token.lexeme) written →
        ∃ again, tokens (Text.encode written) =
            .ok (again ++ [Scanner.endToken (Text.encode written)]) ∧
          again.map Token.kind = inner.map Token.kind ∧
          again.map Token.lexeme = inner.map Token.lexeme := by
  rw [tokens_eq_ok_iff, Item.ofSource_eq] at h
  obtain ⟨inner, last, rfl, hinner, hlast⟩ := List.map_eq_append_iff.mp h.symm
  obtain rfl : last = [Scanner.endToken source] := by
    simpa [List.map_eq_cons_iff] using hlast
  have alone : ∀ t ∈ inner, t.StandsAlone := by
    intro t ht
    apply Item.standsAlone_of_said
    rw [← hinner]
    exact List.mem_map_of_mem ht
  refine ⟨inner, rfl, fun t ht => (alone t ht).inner, ?_⟩
  intro written hwritten
  obtain ⟨again, hagain, hkinds, hlexemes⟩ := Item.said_spaced alone hwritten 1
  refine ⟨again, ?_, hkinds, hlexemes⟩
  rw [tokens_eq_ok_iff, Item.ofSource_eq, hagain, List.map_append]
  rfl

namespace Scanner

/-- Tokens close to one another, the last of them a string with a byte that is no text, and a
comment. -/
def dense : List UInt8 := Text.encode "1.5.if!=\"//" ++ 0xFF :: Text.encode "\"//x"

def denseTokens : List Token :=
  [⟨.number (Number.ofNumeral [49] [53]), "1.5", 1⟩, ⟨.symbol .dot, ".", 1⟩,
    ⟨.symbol .ifWord, "if", 1⟩, ⟨.symbol .bangEqual, "!=", 1⟩,
    ⟨.string "//\uFFFD", "\"//\uFFFD\"", 1⟩]

/-- The same tokens on lines of their own. -/
def loose : String :=
  "1.5" ++ "\t" ++ ("." ++ " " ++ ("if" ++ "\n" ++ ("!=" ++ "\r\n " ++ "\"//\uFFFD\"")))

theorem loose_spaced : Spaced (denseTokens.map Token.lexeme) loose := by
  refine .more ?_ (.more ?_ (.more ?_ (.more ?_ (.one _)))) <;> exact ⟨by decide, by simp⟩

theorem dense_respaced :
    tokens dense = .ok (denseTokens ++ [endToken dense]) ∧
      Spaced (denseTokens.map Token.lexeme) loose ∧
      ∃ again, tokens (Text.encode loose) = .ok (again ++ [endToken (Text.encode loose)]) ∧
        again.map Token.kind = denseTokens.map Token.kind ∧
        again.map Token.lexeme = denseTokens.map Token.lexeme := by
  have hdense : tokens dense = .ok (denseTokens ++ [endToken dense]) := by with_unfolding_all rfl
  obtain ⟨inner, hinner, -, h⟩ := tokens_respaced hdense
  obtain rfl : denseTokens = inner := List.append_cancel_right hinner
  exact ⟨hdense, loose_spaced, h loose loose_spaced⟩

end Scanner

end ClassScript
