import ClassScript.Proofs.Lexical.Tiles
import ClassScript.Proofs.Text.Encoding

/-! Scanning a text. A scanner reads bytes, and it decodes them stretch by stretch; yet no stretch
of a text begins or ends inside a character. So what is said of a stretch repeats a passage of the
text, and a character that is no byte of its own is a fault of its own wherever it stands in no
string and no comment. -/
namespace ClassScript

open Piece

namespace Piece

open Scanner (closer)

/-- No piece ends inside a character. -/
theorem CutBefore.apart {piece : Piece} {rest : List UInt8} (h : CutBefore piece rest) :
    Text.Apart piece.span rest := by
  intro last next hlast hnext
  obtain hwraps | hlow | ⟨first, more, rfl, -, ends⟩ := h.low
  · cases h with
    | lineComment inside ends =>
      obtain rfl : next = newline := by simpa using ends next hnext
      exact .inr rfl
    | blockComment inside =>
      rw [← List.cons_append, ← List.cons_append, List.getLast?_append] at hlast
      obtain rfl : '/'.toUInt8 = last := by simpa [closer] using hlast
      exact .inl (by decide)
    | string inside =>
      rw [← List.cons_append, List.getLast?_append] at hlast
      obtain rfl : '"'.toUInt8 = last := by simpa using hlast
      exact .inl (by decide)
    | openComment | openString => cases hnext
    | _ => exact hwraps.elim
  · exact .inl (hlow last (List.mem_of_getLast? hlast))
  · exact .inr (ends next hnext)

end Piece

/-- What is said of a passage of a text repeats it: the text of a token, a string with its quotes,
and what is quoted as unexpected. -/
def Item.Repeats (passage : String) : Item → Prop
  | token t =>
    t.lexeme = passage ∧ ∀ value, t.kind = .string value → passage = "\"" ++ value ++ "\""
  | fault (.unexpected quoted) _ => quoted = passage
  | fault _ _ => True

namespace Tile

variable {text : String} {tile : Tile} {piece : Piece} {tiles : List Tile}

/-- The tile is a passage of the text, from one place between two characters up to another, and what
is said of it repeats the passage. -/
def Faithful (text : String) (tile : Tile) : Prop :=
  ∃ before passage after : String, text = before ++ passage ++ after ∧
    tile.start = (Text.encode before).length ∧
    tile.stop = (Text.encode (before ++ passage)).length ∧
    ∀ item, tile.item? = some item → item.Repeats passage

/-- Between two quotes there is the text that is between them. -/
theorem quoted {passage : String} {body : List UInt8}
    (h : Text.encode passage = '"'.toUInt8 :: (body ++ ['"'.toUInt8])) :
    passage = "\"" ++ Text.decodeString body ++ "\"" := by
  have hquote : ∀ {mark : String}, Text.encode mark = ['"'.toUInt8] → mark = "\"" := by
    intro mark hmark
    exact Text.encode_injective (hmark.trans (by decide +kernel))
  have hopen : Text.Apart ['"'.toUInt8] (body ++ ['"'.toUInt8]) := by
    rintro _ next ⟨⟩ -
    exact .inl (by decide)
  have hclose : Text.Apart body ['"'.toUInt8] := by
    rintro last _ - ⟨⟩
    exact .inr rfl
  obtain ⟨front, more, rfl, hfront, hmore⟩ := Text.encode_split (a := ['"'.toUInt8]) h hopen
  obtain ⟨middle, back, rfl, rfl, hback⟩ := Text.encode_split hmore hclose
  rw [hquote hfront, hquote hback, Text.decodeString_encode, String.append_assoc]

/-- What a piece says repeats the text that its bytes are. -/
theorem repeats {passage : String} {rest : List UInt8} (h : CutBefore piece rest)
    (hpassage : Text.encode passage = piece.span) {line : Nat} {item : Item}
    (hitem : Item.ofPiece? line piece = some item) : item.Repeats passage := by
  have htext : Text.decodeString piece.span = passage := by
    rw [← hpassage, Text.decodeString_encode]
  cases h with
  | blank | lineComment | blockComment => cases hitem
  | openComment | openString =>
    cases hitem
    trivial
  | string inside =>
    cases hitem
    refine ⟨htext, ?_⟩
    rintro _ ⟨⟩
    exact quoted hpassage
  | whole | decimal | word | pair | single =>
    cases hitem
    exact ⟨htext, fun value h => TokenKind.noConfusion h⟩
  | question =>
    cases hitem
    exact Text.encode_injective (.trans (by decide +kernel) hpassage.symm)
  | unexpected =>
    cases hitem
    exact htext

/-- The tile takes up a passage of the text, with what stands before it and after it. -/
structure TakesUp (text : String) (tile : Tile) (piece : Piece) (before passage after : String) :
    Prop where
  text_eq : text = before ++ passage ++ after
  span_eq : Text.encode passage = piece.span
  start_eq : tile.start = (Text.encode before).length
  stop_eq : tile.stop = (Text.encode (before ++ passage)).length

/-- A tile that begins between two characters takes up a passage. -/
theorem Cut.takesUp (cut : Cut (Text.encode text) tile piece) {before more : String}
    (htext : text = before ++ more) (hstart : tile.start = (Text.encode before).length) :
    ∃ passage after, TakesUp text tile piece before passage after := by
  have hmore : Text.encode more = piece.span ++ (Text.encode text).drop tile.stop := by
    rw [← cut.bytes, htext, Text.encode_append, hstart, List.drop_left]
  obtain ⟨passage, after, rfl, hpassage, -⟩ := Text.encode_split hmore cut.rule.apart
  refine ⟨passage, after, by rw [htext, String.append_assoc], hpassage, hstart, ?_⟩
  rw [cut.stop_eq, hstart, Text.encode_append, List.length_append, hpassage]

/-- So do all tiles that follow one another from a place between two characters on. -/
theorem Consecutive.takesUp {start stop : Nat} (h : Consecutive start tiles stop)
    (cuts : ∀ tile ∈ tiles, ∃ piece, tile.Cut (Text.encode text) piece) {before more : String}
    (htext : text = before ++ more) (hstart : start = (Text.encode before).length) :
    ∀ tile ∈ tiles, ∃ piece before passage after, tile.Cut (Text.encode text) piece ∧
      TakesUp text tile piece before passage after := by
  induction tiles generalizing start before more with
  | nil => simp
  | cons tile tiles ih =>
    obtain ⟨rfl, -, hrest⟩ := h
    obtain ⟨⟨piece, cut⟩, cuts⟩ := List.forall_mem_cons.mp cuts
    obtain ⟨passage, after, taken⟩ := cut.takesUp htext hstart
    exact List.forall_mem_cons.mpr
      ⟨⟨piece, before, passage, after, cut, taken⟩, ih hrest cuts taken.text_eq taken.stop_eq⟩

theorem TakesUp.faithful {before passage after : String}
    (taken : TakesUp text tile piece before passage after)
    (cut : tile.Cut (Text.encode text) piece) : tile.Faithful text := by
  refine ⟨before, passage, after, taken.text_eq, taken.start_eq, taken.stop_eq, ?_⟩
  intro item hitem
  exact repeats cut.rule taken.span_eq (cut.item_eq.symm.trans hitem)

/-- The tile is a string or a comment, with its end or without. -/
def Wraps (source : List UInt8) (tile : Tile) : Prop :=
  match tile.item? with
  | none => ['/'.toUInt8, '/'.toUInt8] <+: tile.span source ∨
    ['/'.toUInt8, '*'.toUInt8] <+: tile.span source
  | some (.token t) => ∃ value, t.kind = .string value
  | some (.fault .unterminatedString _) | some (.fault .unterminatedComment _) => True
  | some (.fault (.unexpected _) _) => False

theorem Cut.wraps {source : List UInt8} (cut : Cut source tile piece) (h : piece.Wraps) :
    tile.Wraps source := by
  have rule := cut.rule
  rw [Wraps, cut.item_eq, cut.span_eq]
  generalize source.drop tile.stop = rest at rule
  cases rule with
  | lineComment => exact .inl ⟨_, rfl⟩
  | blockComment => exact .inr ⟨_, rfl⟩
  | string => exact ⟨_, rfl⟩
  | openComment | openString => trivial
  | _ => exact h.elim

/-- A passage with a character that is no byte of its own is a string or a comment, or that
character alone, and then it is reported as unexpected. -/
theorem TakesUp.foreign {before passage after : String}
    (taken : TakesUp text tile piece before passage after) (cut : tile.Cut (Text.encode text) piece)
    {c : Char} (hc : c ∈ passage.toList) (hhigh : 0x80 ≤ c.toNat) :
    tile.Wraps (Text.encode text) ∨ passage = .singleton c ∧
      ∃ line, tile.item? = some (.fault (.unexpected (.singleton c)) line) := by
  obtain hwraps | hlow | ⟨first, more, rfl, hmore, -⟩ := cut.rule.low
  · exact .inl (cut.wraps hwraps)
  · obtain ⟨b, hb, h⟩ := Text.exists_high hc hhigh
    rw [taken.span_eq] at hb
    have := hlow b hb
    omega
  · obtain ⟨c', hpassage⟩ := Text.eq_singleton taken.span_eq hmore
    obtain rfl : c = c' := by simpa [hpassage] using hc
    have hone : passage = .singleton c := by
      rw [← String.toList_inj, hpassage, String.toList_singleton]
    have htext : Text.decodeString (first :: more) = .singleton c := by
      rw [← hone, ← Text.decodeString_encode passage, taken.span_eq]
    refine .inr ⟨hone, ?_⟩
    rw [cut.item_eq, htext]
    exact ⟨_, rfl⟩

end Tile

/-- A character that begins in a passage stands in it. -/
theorem mem_passage {before passage after front back : String} {c : Char}
    (h : before ++ passage ++ after = front ++ .singleton c ++ back)
    (hstart : (Text.encode before).length ≤ (Text.encode front).length)
    (hstop : (Text.encode front).length < (Text.encode (before ++ passage)).length) :
    ∃ x y, passage = x ++ .singleton c ++ y ∧ front = before ++ x := by
  have hlist : before.toList ++ (passage.toList ++ after.toList) =
      front.toList ++ c :: back.toList := by
    simpa using congrArg String.toList h
  obtain ⟨x, hfront, hx⟩ : ∃ x, front.toList = before.toList ++ x ∧
      passage.toList ++ after.toList = x ++ c :: back.toList := by
    rcases List.append_eq_append_iff.mp hlist with ⟨x, hfront, hx⟩ | ⟨x, hbefore, hx⟩
    · exact ⟨x, hfront, hx⟩
    · rcases x with - | ⟨d, x⟩
      · exact ⟨[], by simpa using hbefore.symm, hx.symm⟩
      · have := Text.length_encode_lt hbefore.symm
        omega
  rcases List.append_eq_append_iff.mp hx with ⟨y, hy, -⟩ | ⟨y, hpassage, hy⟩
  · have hprefix : (before ++ passage).toList <+: front.toList :=
      ⟨y, by rw [hfront, hy, String.toList_append, List.append_assoc]⟩
    have := Text.length_encode_le hprefix
    omega
  rcases y with - | ⟨d, y⟩
  · have hprefix : (before ++ passage).toList <+: front.toList :=
      ⟨[], by simp [hfront, hpassage]⟩
    have := Text.length_encode_le hprefix
    omega
  · obtain ⟨rfl, -⟩ := List.cons.inj hy
    refine ⟨.ofList x, .ofList y, ?_, ?_⟩
    · rw [← String.toList_inj]
      simp [hpassage]
    · rw [← String.toList_inj]
      simp [hfront]

namespace Tile

variable {text : String} {tiles : List Tile}

/-- Of a character that is no byte of its own, with a text before it: the tile is a string or a
comment, or it is this character alone and reports it as unexpected. -/
def Foreign (text before : String) (c : Char) (tile : Tile) : Prop :=
  tile.Wraps (Text.encode text) ∨
    tile.start = (Text.encode before).length ∧
    tile.stop = (Text.encode (before ++ .singleton c)).length ∧
    ∃ line, tile.item? = some (.fault (.unexpected (.singleton c)) line)

/-- Among tiles that are passages, one alone has bytes of such a character. -/
theorem Consecutive.foreign (h : Consecutive 0 tiles (Text.encode text).length)
    (takesUp : ∀ tile ∈ tiles, ∃ piece before passage after, tile.Cut (Text.encode text) piece ∧
      TakesUp text tile piece before passage after)
    {before after : String} {c : Char} (htext : text = before ++ .singleton c ++ after)
    (hhigh : 0x80 ≤ c.toNat) :
    ∃ tile, tiles.filter (Touches (Text.encode before).length
      (Text.encode (before ++ .singleton c)).length) = [tile] ∧ tile.Foreign text before c := by
  have hgrown : before.toList ++ c :: [] = (before ++ .singleton c).toList := by simp
  have hwhole : (before ++ .singleton c).toList <+: text.toList := ⟨after.toList, by simp [htext]⟩
  have hlt := Text.length_encode_lt hgrown
  have hle := Text.length_encode_le hwhole
  obtain ⟨tile, hm, hstart, hstop⟩ :=
    h.exists_mem (Nat.zero_le (Text.encode before).length) (by omega)
  obtain ⟨piece, before', passage, after', cut, taken⟩ := takesUp tile hm
  -- the passage of the tile with the first byte of the character has all of it
  obtain ⟨x, y, hpassage, hbefore⟩ := mem_passage (taken.text_eq.symm.trans htext)
    (taken.start_eq ▸ hstart) (taken.stop_eq ▸ hstop)
  have hfits : (before ++ .singleton c).toList <+: (before' ++ passage).toList :=
    ⟨y.toList, by simp [hpassage, hbefore]⟩
  have hend := Text.length_encode_le hfits
  rw [← taken.stop_eq] at hend
  refine ⟨tile, h.touching hm hstart hlt hend, ?_⟩
  have hc : c ∈ passage.toList := by simp [hpassage]
  obtain hwraps | ⟨hone, line, hitem⟩ := taken.foreign cut hc hhigh
  · exact .inl hwraps
  · obtain ⟨rfl, -⟩ : x = "" ∧ y = "" := by
      have h := congrArg String.toList (hone.symm.trans hpassage)
      simpa [List.cons_eq_append_iff] using h
    rw [String.append_empty] at hbefore
    rw [hone, ← hbefore] at taken
    exact .inr ⟨taken.start_eq, taken.stop_eq, line, hitem⟩

end Tile

namespace Scanner

/-- A scanner keeps a text. It tiles the bytes of the text, and every tile is a passage of it
between two characters, which all that is said of the tile repeats. A character that is no byte of
its own has bytes in one tile alone: in a string or a comment, or else in a fault of its own that
quotes just this character. -/
structure Keeping (searches : Searches) (text : String) (tiles : List Tile) : Prop
    extends Tiling searches (Text.encode text) tiles where
  faithful : ∀ tile ∈ tiles, tile.Faithful text
  foreign : ∀ (before after : String) (c : Char), text = before ++ .singleton c ++ after →
    0x80 ≤ c.toNat → ∃ tile, tiles.filter (Tile.Touches (Text.encode before).length
      (Text.encode (before ++ .singleton c)).length) = [tile] ∧ tile.Foreign text before c

/-- Every text is kept. -/
theorem text_kept {searches : Searches} (lawful : searches.Lawful) (text : String) :
    ∃ tiles, Keeping searches text tiles := by
  obtain ⟨tiles, tiling, cuts⟩ := tiled_by_pieces lawful (Text.encode text)
  have hempty : 0 = (Text.encode "").length := by rw [Text.encode_empty, List.length_nil]
  have takesUp := tiling.consecutive.takesUp cuts String.empty_append.symm hempty
  refine ⟨tiles, tiling, ?_, ?_⟩
  · intro tile hm
    obtain ⟨piece, before, passage, after, cut, taken⟩ := takesUp tile hm
    exact taken.faithful cut
  · intro before after c htext hhigh
    exact tiling.consecutive.foreign takesUp htext hhigh

/-- A string and a comment with characters that are no bytes of their own, and two such characters
one after the other. -/
def foreign : String := "\"é\" /*ß*/ λπ+"

theorem foreign_kept :
    Searches.plain.Lawful ∧ (∃ tiles, Keeping Searches.plain foreign tiles) ∧
      Item.ofSource (Text.encode foreign) =
        [.token ⟨.string "é", "\"é\"", 1⟩, .fault (.unexpected "λ") 1, .fault (.unexpected "π") 1,
          .token ⟨.symbol .plus, "+", 1⟩, .token ⟨.symbol .endOfSource, "", 1⟩] := by
  refine ⟨Searches.plain_lawful, text_kept Searches.plain_lawful foreign, ?_⟩
  with_unfolding_all rfl

end Scanner

end ClassScript
