import ClassScript.Proofs.Lexical.Lines
import ClassScript.Proofs.Lexical.Spelling
import ClassScript.Proofs.Lexical.Tiles

/-! What a scanner takes at each place of a source: a comment up to its end, a string up to the next
quote, or the longest text of another token; and a fault just where it finds none of these. -/
namespace ClassScript

open Piece
open Scanner (closer)

/-- Something begins the bytes: a blank, a comment or a string that has its end, or the text of
another token where no comment is opened. -/
inductive Begun : List UInt8 → Prop
  | blank {b : UInt8} (h : isBlank b = true) (rest : List UInt8) : Begun (b :: rest)
  | lineComment (rest : List UInt8) : Begun ('/'.toUInt8 :: '/'.toUInt8 :: rest)
  | blockComment (body rest : List UInt8) :
      Begun ('/'.toUInt8 :: '*'.toUInt8 :: (body ++ closer ++ rest))
  | string (body rest : List UInt8) : Begun ('"'.toUInt8 :: (body ++ '"'.toUInt8 :: rest))
  | spelled {bytes : List UInt8} {kind : TokenKind} (h : Spells bytes kind) {rest : List UInt8}
      (closed : ¬ ['/'.toUInt8, '*'.toUInt8] <+: bytes ++ rest) : Begun (bytes ++ rest)

theorem Begun.first {b : UInt8} {rest : List UInt8} (h : Begun (b :: rest)) :
    isBlank b = true ∨
    (b = '/'.toUInt8 ∧ ((∃ more, rest = '/'.toUInt8 :: more) ∨
      ∃ body more, rest = '*'.toUInt8 :: (body ++ closer ++ more))) ∨
    (b = '"'.toUInt8 ∧ '"'.toUInt8 ∈ rest) ∨
    ∃ bytes kind more, Spells (b :: bytes) kind ∧ rest = bytes ++ more ∧
      ¬ ['/'.toUInt8, '*'.toUInt8] <+: b :: rest := by
  generalize hbytes : b :: rest = bytes at h
  cases h with
  | blank h =>
    obtain ⟨rfl, -⟩ := List.cons.inj hbytes
    exact .inl h
  | lineComment more =>
    obtain ⟨rfl, rfl⟩ := List.cons.inj hbytes
    exact .inr (.inl ⟨rfl, .inl ⟨more, rfl⟩⟩)
  | blockComment body more =>
    obtain ⟨rfl, rfl⟩ := List.cons.inj hbytes
    exact .inr (.inl ⟨rfl, .inr ⟨body, more, rfl⟩⟩)
  | string body more =>
    obtain ⟨rfl, rfl⟩ := List.cons.inj hbytes
    exact .inr (.inr (.inl ⟨rfl, by simp⟩))
  | @spelled bytes kind h more closed =>
    obtain ⟨first, bytes, rfl⟩ := List.exists_cons_of_ne_nil h.ne_nil
    obtain ⟨rfl, rfl⟩ := List.cons.inj hbytes
    exact .inr (.inr (.inr ⟨bytes, kind, more, h, rfl, closed⟩))

/-- A byte that begins no blank, no literal and no word begins something only as a mark, or as the
slash of a comment. -/
theorem Begun.of_bare {b : UInt8} {rest : List UInt8} (h : Begun (b :: rest)) (bare : Bare b)
    (hslash : b ≠ '/'.toUInt8) : (∃ entry ∈ Symbol.singles, entry.1.toUInt8 = b) ∨
      ∃ entry ∈ Symbol.pairs, entry.1.1.toUInt8 = b ∧ rest.head? = some entry.1.2.toUInt8 := by
  obtain hblank | ⟨hb, -⟩ | ⟨hb, -⟩ | ⟨bytes, kind, more, hspells, rfl, -⟩ := h.first
  · simp [bare.blank] at hblank
  · exact absurd hb hslash
  · exact absurd hb bare.quote
  · obtain ⟨-, h⟩ | ⟨entry, hm, hmark, rfl⟩ := hspells.of_bare bare
    · exact .inl h
    · exact .inr ⟨entry, hm, hmark, rfl⟩

namespace Piece

/-- Two slashes open a comment that goes up to the next line end. -/
theorem CutBefore.lineOpener {piece : Piece} {rest : List UInt8} (h : CutBefore piece rest)
    (hopener : ['/'.toUInt8, '/'.toUInt8] <+: piece.span ++ rest) :
    piece.part = .comment ∧ newline ∉ piece.span ∧ Stops (· != newline) rest := by
  have hpart : piece.part = .comment := by
    obtain ⟨more, hbytes⟩ := hopener
    rw [← h.leads hbytes.symm]
    exact congrArg Piece.part (leading_lineComment more)
  cases h with
  | lineComment inside ends =>
    have hslash : newline ≠ '/'.toUInt8 := by decide
    exact ⟨rfl, by simp [hslash, inside], ends⟩
  | blockComment =>
    have hmark := (List.cons_prefix_cons.mp (List.cons_prefix_cons.mp hopener).2).1
    exact absurd hmark (by decide)
  | _ => cases hpart

/-- A slash and a star open a comment that goes past the next closer, or to the end. -/
theorem CutBefore.blockOpener {piece : Piece} {rest : List UInt8} (h : CutBefore piece rest)
    (hopener : ['/'.toUInt8, '*'.toUInt8] <+: piece.span ++ rest) :
    (piece.part = .comment ∧ ∃ body, piece.span = '/'.toUInt8 :: '*'.toUInt8 :: (body ++ closer) ∧
      ∀ i < body.length, ¬ closer <+: (body ++ closer).drop i) ∨
    (piece.part = .fault .unterminatedComment ∧ rest = [] ∧
      ∃ body, piece.span = '/'.toUInt8 :: '*'.toUInt8 :: body ∧ ∀ i, ¬ closer <+: body.drop i) := by
  have hpart : piece.part = .comment ∨ piece.part = .fault .unterminatedComment := by
    obtain ⟨more, hbytes⟩ := hopener
    rw [← h.leads hbytes.symm]
    change (leading '/'.toUInt8 ('*'.toUInt8 :: more)).part = _ ∨
      (leading '/'.toUInt8 ('*'.toUInt8 :: more)).part = _
    rw [leading_blockComment, Piece.blockComment]
    split
    · exact .inl rfl
    · exact .inr rfl
  cases h with
  | lineComment =>
    have hmark := (List.cons_prefix_cons.mp (List.cons_prefix_cons.mp hopener).2).1
    exact absurd hmark (by decide)
  | blockComment inside => exact .inl ⟨rfl, _, rfl, inside⟩
  | openComment inside => exact .inr ⟨rfl, rfl, _, rfl, inside⟩
  | _ => simp at hpart

theorem CutBefore.of_string {kind : TokenKind} {value : String} {span rest : List UInt8}
    (h : CutBefore ⟨.token kind, span⟩ rest) (hkind : kind = .string value) :
    ∃ body, span = '"'.toUInt8 :: (body ++ ['"'.toUInt8]) ∧ '"'.toUInt8 ∉ body ∧
      value = Text.decodeString body := by
  cases h with
  | string inside =>
    cases hkind
    exact ⟨_, rfl, inside, rfl⟩
  | _ => cases hkind

theorem CutBefore.kind_of_word {kind : TokenKind} {span rest : List UInt8}
    (h : CutBefore ⟨.token kind, span⟩ rest) (hword : IsWord span) :
    kind = .symbol (.ofWord (Text.decodeString span)) := by
  obtain ⟨first, more, rfl⟩ : ∃ first more, span = first :: more := by
    cases span with
    | nil => cases hword.1
    | cons first more => exact ⟨first, more, rfl⟩
  have hfirst := (isWord_cons.mp hword).1
  cases h with
  | word => rfl
  | string => cases hfirst
  | whole digits | decimal digits =>
    have hdigit := digits first (by simp)
    simp [digit_not_word hfirst] at hdigit
  | pair entry =>
    simp [(bare_pair entry).word] at hfirst
  | single entry =>
    simp [(bare_single entry).word] at hfirst

/-- A comment's opener begins no token. -/
theorem CutBefore.closed {kind : TokenKind} {span rest : List UInt8}
    (h : CutBefore ⟨.token kind, span⟩ rest) : ¬ ['/'.toUInt8, '*'.toUInt8] <+: span ++ rest := by
  intro hopener
  obtain ⟨hpart, -⟩ | ⟨hpart, -⟩ := h.blockOpener hopener <;> cases hpart

/-- A piece that is no fault has begun. -/
theorem CutBefore.begun {piece : Piece} {rest : List UInt8} (h : CutBefore piece rest)
    (noFault : ∀ cause, piece.part ≠ .fault cause) : Begun (piece.span ++ rest) := by
  have htoken : ∀ {kind : TokenKind} {span : List UInt8}, CutBefore ⟨.token kind, span⟩ rest →
      (∀ value, kind ≠ .string value) → Begun (span ++ rest) :=
    fun h noString => .spelled (h.spells noString) h.closed
  cases h with
  | blank hblank => exact .blank hblank rest
  | lineComment => exact .lineComment _
  | blockComment => exact .blockComment _ rest
  | @string body =>
    have h := Begun.string body rest
    simpa using h
  | openComment | openString | question | unexpected => exact absurd rfl (noFault _)
  | whole digits ends pointless => exact htoken (.whole digits ends pointless) (by simp)
  | decimal digits digits' ends => exact htoken (.decimal digits digits' ends) (by simp)
  | word start inside ends => exact htoken (.word start inside ends) (by simp)
  | pair entry => exact htoken (.pair entry rest) (by simp)
  | single entry alone noComment => exact htoken (.single entry alone noComment) (by simp)

/-- Nothing has begun where a fault stands. -/
theorem CutBefore.not_begun {cause : LexFault} {span rest : List UInt8}
    (h : CutBefore ⟨.fault cause, span⟩ rest) : ¬ Begun (span ++ rest) := by
  intro hbegun
  cases h with
  | @openComment body inside =>
    rw [List.append_nil] at hbegun
    obtain hblank | ⟨-, ⟨more, hmore⟩ | ⟨body', more, hmore⟩⟩ | ⟨hquote, -⟩ |
        ⟨_, _, _, -, -, closed⟩ :=
      hbegun.first
    · cases hblank
    · cases hmore
    · obtain ⟨-, rfl⟩ := List.cons.inj hmore
      refine inside body'.length ?_
      rw [List.append_assoc, List.drop_left]
      exact List.prefix_append _ _
    · cases hquote
    · exact closed ⟨body, rfl⟩
  | @openString body inside =>
    rw [List.append_nil] at hbegun
    obtain hblank | ⟨hslash, -⟩ | ⟨-, hquote⟩ | ⟨_, _, _, hspells, -⟩ := hbegun.first
    · cases hblank
    · cases hslash
    · exact inside hquote
    · exact hspells.not_quote rfl
  | question alone =>
    have bare : Bare '?'.toUInt8 := ⟨rfl, by decide, rfl, rfl⟩
    have hsingle : ∀ entry ∈ Symbol.singles, entry.1.toUInt8 ≠ '?'.toUInt8 := by decide
    have hpair : ∀ entry ∈ Symbol.pairs, entry.1.1.toUInt8 = '?'.toUInt8 →
        entry.1.2.toUInt8 = '?'.toUInt8 := by decide
    obtain ⟨entry, hm, hmark⟩ | ⟨entry, hm, hmark, hsecond⟩ := hbegun.of_bare bare (by decide)
    · exact hsingle entry hm hmark
    · exact alone (hpair entry hm hmark ▸ hsecond)
  | @unexpected first more _ strange =>
    have hpair : ∀ entry ∈ Symbol.pairs, entry.1.1.toUInt8 = '?'.toUInt8 ∨
        ∃ single ∈ Symbol.singles, single.1.toUInt8 = entry.1.1.toUInt8 := by decide
    have hslash : first ≠ '/'.toUInt8 := fun h => strange.mark ('/', .slash) (by decide) h.symm
    obtain ⟨entry, hm, hmark⟩ | ⟨entry, hm, rfl, -⟩ := hbegun.of_bare strange.toBare hslash
    · exact strange.mark entry hm hmark
    · obtain hquestion | ⟨single, hsingle, hmark⟩ := hpair entry hm
      · exact strange.question hquestion
      · exact strange.mark single hsingle hmark

end Piece

namespace Tile

variable {source : List UInt8} {tile : Tile} {piece : Piece}

/-- What the tile takes is what has to be taken where it begins. A token that is no string has the
longest text that stands there; a word among them is of the kind of its keyword, or else a name. A
string goes up to the first quote behind the one it begins with. A comment's opener opens a comment:
up to the next line end, or past the first closer behind the opener, or without end. And a fault
stands just where nothing else has begun. -/
structure Munched (source : List UInt8) (tile : Tile) : Prop where
  token : ∀ t, tile.item? = some (.token t) → (∀ value, t.kind ≠ .string value) →
    tile.span source = Text.encode t.lexeme ∧ Spells (Text.encode t.lexeme) t.kind ∧
      Longest (Text.encode t.lexeme) (source.drop tile.start)
  word : ∀ t, tile.item? = some (.token t) → IsWord (tile.span source) → ∀ symbol,
    t.kind = .symbol symbol ↔ (t.lexeme, symbol) ∈ Symbol.keywords ∨
      symbol = .identifier ∧ ∀ entry ∈ Symbol.keywords, entry.1 ≠ t.lexeme
  string : ∀ t value, tile.item? = some (.token t) → t.kind = .string value → ∃ body,
    tile.span source = '"'.toUInt8 :: (body ++ ['"'.toUInt8]) ∧ '"'.toUInt8 ∉ body ∧
      value = Text.decodeString body
  lineComment : ['/'.toUInt8, '/'.toUInt8] <+: source.drop tile.start → tile.item? = none ∧
    newline ∉ tile.span source ∧ ∀ b, source[tile.stop]? = some b → b = newline
  blockComment : ['/'.toUInt8, '*'.toUInt8] <+: source.drop tile.start →
    (tile.item? = none ∧ ∃ body,
      tile.span source = '/'.toUInt8 :: '*'.toUInt8 :: (body ++ closer) ∧
        ∀ i < body.length, ¬ closer <+: (body ++ closer).drop i) ∨
    ((∃ line, tile.item? = some (.fault .unterminatedComment line)) ∧ tile.stop = source.length ∧
      ∀ i, ¬ closer <+: source.drop (tile.start + 2 + i))
  fault : (∃ cause line, tile.item? = some (.fault cause line)) ↔ ¬ Begun (source.drop tile.start)

theorem Cut.munched (cut : Cut source tile piece) : tile.Munched source where
  token := by
    intro t ht noString
    obtain ⟨part, span⟩ := piece
    obtain ⟨rfl, hlexeme⟩ := Item.ofPiece?_token (cut.item_eq.symm.trans ht)
    have hspan : Text.encode t.lexeme = span := by
      rw [hlexeme, Text.encode_decode_low (cut.rule.low_of_token noString)]
    rw [hspan, cut.bytes]
    exact ⟨cut.span_eq, cut.rule.spells noString, cut.rule.longest noString⟩
  word := by
    intro t ht hword symbol
    obtain ⟨part, span⟩ := piece
    obtain ⟨rfl, hlexeme⟩ := Item.ofPiece?_token (cut.item_eq.symm.trans ht)
    rw [cut.span_eq] at hword
    have hkind := cut.rule.kind_of_word hword
    rw [hkind, hlexeme, TokenKind.symbol.injEq, Symbol.ofWord_eq_iff]
  string := by
    intro t value ht hkind
    obtain ⟨part, span⟩ := piece
    obtain ⟨rfl, -⟩ := Item.ofPiece?_token (cut.item_eq.symm.trans ht)
    rw [cut.span_eq]
    exact cut.rule.of_string hkind
  lineComment := by
    rw [cut.bytes, cut.span_eq, cut.item_eq]
    intro hopener
    obtain ⟨hpart, hinside, hends⟩ := cut.rule.lineOpener hopener
    obtain ⟨part, span⟩ := piece
    obtain rfl : part = .comment := hpart
    refine ⟨rfl, hinside, fun b hb => ?_⟩
    simpa using hends b (by rw [List.head?_drop, hb])
  blockComment := by
    intro hopener
    rw [cut.bytes] at hopener
    rw [cut.span_eq, cut.item_eq]
    obtain ⟨part, span⟩ := piece
    obtain ⟨rfl, hbody⟩ | ⟨rfl, hrest, body, rfl, hbody⟩ := cut.rule.blockOpener hopener
    · exact .inl ⟨rfl, hbody⟩
    · have hdrop : source.drop tile.start = '/'.toUInt8 :: '*'.toUInt8 :: body := by
        rw [cut.bytes, hrest, List.append_nil]
      have hlength := congrArg List.length hdrop
      have hstop := cut.stop_eq
      simp only [List.length_drop, List.length_cons] at hlength hstop
      refine .inr ⟨⟨_, rfl⟩, by omega, fun i => ?_⟩
      rw [Nat.add_assoc, ← List.drop_drop, hdrop, Nat.add_comm]
      exact hbody i
  fault := by
    rw [cut.item_eq, Item.ofPiece?_fault, cut.bytes]
    obtain ⟨part, span⟩ := piece
    constructor
    · rintro ⟨cause, rfl⟩
      exact cut.rule.not_begun
    · intro hbegun
      by_contra noFault
      exact hbegun (cut.rule.begun (not_exists.mp noFault))

end Tile

namespace Scanner

/-- Every source is taken as it has to be, and there are twenty keywords, none of them twice and
none of them a name. -/
theorem source_munched {searches : Searches} (lawful : searches.Lawful) (source : List UInt8) :
    (Symbol.keywords.length = 20 ∧ (Symbol.keywords.map Prod.fst).Nodup ∧
      ∀ entry ∈ Symbol.keywords, entry.2 ≠ .identifier) ∧
    ∃ tiles, Tiling searches source tiles ∧ ∀ tile ∈ tiles, tile.Munched source := by
  obtain ⟨tiles, tiling, cuts⟩ := tiled_by_pieces lawful source
  refine ⟨by decide +kernel, tiles, tiling, ?_⟩
  intro tile hm
  obtain ⟨piece, cut⟩ := cuts tile hm
  exact cut.munched

/-- Marks and numerals that run into one another, a comment that closes late, a mark that is nothing
alone, and a word that begins with a keyword. -/
def greedy : List UInt8 := Text.encode "!!====1.x/*/*/1.2.3<==?iff"

theorem greedy_munched :
    Searches.plain.Lawful ∧
    ((Symbol.keywords.length = 20 ∧ (Symbol.keywords.map Prod.fst).Nodup ∧
        ∀ entry ∈ Symbol.keywords, entry.2 ≠ .identifier) ∧
      ∃ tiles, Tiling Searches.plain greedy tiles ∧ ∀ tile ∈ tiles, tile.Munched greedy) ∧
    Item.ofSource greedy =
      [.token ⟨.symbol .doubleBang, "!!", 1⟩, .token ⟨.symbol .equalEqual, "==", 1⟩,
        .token ⟨.symbol .equalEqual, "==", 1⟩,
        .token ⟨.number (Number.ofNumeral [49] []), "1", 1⟩, .token ⟨.symbol .dot, ".", 1⟩,
        .token ⟨.symbol .identifier, "x", 1⟩,
        .token ⟨.number (Number.ofNumeral [49] [50]), "1.2", 1⟩, .token ⟨.symbol .dot, ".", 1⟩,
        .token ⟨.number (Number.ofNumeral [51] []), "3", 1⟩,
        .token ⟨.symbol .lessEqual, "<=", 1⟩, .token ⟨.symbol .equal, "=", 1⟩,
        .fault (.unexpected "?") 1, .token ⟨.symbol .identifier, "iff", 1⟩,
        .token ⟨.symbol .endOfSource, "", 1⟩] := by
  refine ⟨Searches.plain_lawful, source_munched Searches.plain_lawful greedy, ?_⟩
  with_unfolding_all rfl

end Scanner

end ClassScript
