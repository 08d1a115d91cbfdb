import ClassScript.Proofs.Lexical.Cuts
import ClassScript.Proofs.Lexical.Turns

/-! A scanner tiles its source. The turns of its loop read stretches that lie one after another and
are the whole source together, and the calls of `next` give what those stretches say, with the lines
they end on. -/
namespace ClassScript

/-- A stretch of a source, from one index up to another, and what a scanner says of it. -/
structure Tile where
  start : Nat
  stop : Nat
  item? : Option Item

namespace Tile

def span (source : List UInt8) (tile : Tile) : List UInt8 :=
  (source.drop tile.start).take (tile.stop - tile.start)

/-- The number of the line that an index is on. -/
def lineUpTo (source : List UInt8) (index : Nat) : Nat := 1 + Piece.lineEnds (source.take index)

/-- What a scanner has to say of a stretch: nothing of blanks and comments, and of other stretches a
token with their text or a fault, on the line they end on. A comment without an end is reported on
the line of its opener. -/
def Sound (source : List UInt8) (tile : Tile) : Prop :=
  match tile.item? with
  | none => Piece.Skipped (tile.span source)
  | some (.token t) =>
    t.kind ≠ .symbol .endOfSource ∧ t.lexeme = Text.decodeString (tile.span source) ∧
      t.line = lineUpTo source tile.stop
  | some (.fault .unterminatedComment line) =>
    ['/'.toUInt8, '*'.toUInt8] <+: tile.span source ∧ line = lineUpTo source tile.start
  | some (.fault _ line) => line = lineUpTo source tile.stop

theorem span_eq {source span : List UInt8} {start : Nat} (hspan : span <+: source.drop start)
    (item? : Option Item) : Tile.span source ⟨start, start + span.length, item?⟩ = span := by
  rw [Tile.span, Nat.add_sub_cancel_left, ← List.prefix_iff_eq_take.mp hspan]

/-- Past a stretch the line ends in it count. -/
theorem lineUpTo_add {source span : List UInt8} {start : Nat} (hspan : span <+: source.drop start) :
    lineUpTo source (start + span.length) = lineUpTo source start + Piece.lineEnds span := by
  rw [lineUpTo, lineUpTo, List.take_add, ← List.prefix_iff_eq_take.mp hspan, Piece.lineEnds_append,
    Nat.add_assoc]

/-- What a piece says is what has to be said of the stretch that it takes up. -/
theorem sound_of_piece {source : List UInt8} {start : Nat} {piece : Piece} (hpiece : piece.Sound)
    (hspan : piece.span <+: source.drop start) :
    Sound source
      ⟨start, start + piece.span.length, Item.ofPiece? (lineUpTo source start) piece⟩ := by
  have hs := span_eq hspan (Item.ofPiece? (lineUpTo source start) piece)
  have hl := lineUpTo_add hspan
  obtain ⟨part, span⟩ := piece
  cases part with
  | blank => exact (congrArg Piece.Skipped hs).mpr hpiece
  | comment => exact (congrArg Piece.Skipped hs).mpr hpiece
  | token kind => exact ⟨hpiece, congrArg Text.decodeString hs.symm, hl.symm⟩
  | fault cause =>
    cases cause with
    | unexpected text => exact hl.symm
    | unterminatedString => exact hl.symm
    | unterminatedComment => exact ⟨(congrArg (_ <+: ·) hs).mpr hpiece, rfl⟩

/-- Tiles that lie one after another, none of them empty, from one index up to another. -/
def Consecutive : Nat → List Tile → Nat → Prop
  | start, [], stop => start = stop
  | start, tile :: tiles, stop =>
    tile.start = start ∧ tile.start < tile.stop ∧ Consecutive tile.stop tiles stop

theorem Consecutive.bounds {start stop : Nat} {tiles : List Tile}
    (h : Consecutive start tiles stop) : start ≤ stop ∧ ∀ tile ∈ tiles, start ≤ tile.start := by
  induction tiles generalizing start with
  | nil => exact ⟨h.le, by simp⟩
  | cons tile tiles ih =>
    obtain ⟨hstart, hlt, hrest⟩ := h
    obtain ⟨hle, hall⟩ := ih hrest
    refine ⟨by omega, ?_⟩
    intro other hm
    rcases List.mem_cons.mp hm with rfl | hm
    · exact hstart.ge
    · have := hall other hm
      omega

theorem Consecutive.disjoint {start stop : Nat} {tiles : List Tile}
    (h : Consecutive start tiles stop) : tiles.Pairwise fun a b => a.stop ≤ b.start := by
  induction tiles generalizing start with
  | nil => exact .nil
  | cons tile tiles ih =>
    obtain ⟨-, -, hrest⟩ := h
    exact .cons hrest.bounds.2 (ih hrest)

theorem Consecutive.covers {start stop : Nat} {tiles : List Tile}
    (h : Consecutive start tiles stop) (source : List UInt8) :
    tiles.flatMap (span source) = (source.drop start).take (stop - start) := by
  induction tiles generalizing start with
  | nil =>
    obtain rfl : start = stop := h
    simp
  | cons tile tiles ih =>
    obtain ⟨rfl, hlt, hrest⟩ := h
    have hle := hrest.bounds.1
    rw [List.flatMap_cons, ih hrest, span,
      show stop - tile.start = (tile.stop - tile.start) + (stop - tile.stop) by omega,
      List.take_add, List.drop_drop,
      show tile.start + (tile.stop - tile.start) = tile.stop by omega]

end Tile

namespace Scanner

open Piece Tile

variable {searches : Searches} {s last : Scanner} {tiles : List Tile}

/-- Turns of the loop, one after another, with the tiles that they read. -/
inductive Turns (searches : Searches) : Scanner → List Tile → Scanner → Prop
  | done {s : Scanner} : Turns searches s [] s
  | turn {s after last : Scanner} {item? : Option Item} {tiles : List Tile}
      (inside : s.position < s.source.length) (turned : s.turn searches = some (item?, after))
      (more : Turns searches after tiles last) :
      Turns searches s (⟨s.position, after.position, item?⟩ :: tiles) last

/-- The scanner is at an index of the source, or at its end, and counts the lines up to there. -/
structure Counted (source : List UInt8) (s : Scanner) : Prop where
  source_eq : s.source = source
  inside : s.position ≤ source.length
  line_eq : s.line = lineUpTo source s.position

theorem Counted.new (source : List UInt8) : Counted source (new source) :=
  ⟨rfl, Nat.zero_le _, rfl⟩

/-- Before the end there is a byte to read. -/
theorem Counted.unread_cons {source : List UInt8} (counted : Counted source s)
    (hin : s.position < source.length) : ∃ first rest, s.unread = first :: rest := by
  obtain ⟨rfl, hle, -⟩ := counted
  apply List.exists_cons_of_ne_nil
  rw [Ne, unread_eq_nil hle]
  omega

/-- A turn reads a tile, and counts on. -/
theorem Counted.turn (lawful : searches.Lawful) {source : List UInt8} (counted : Counted source s)
    (hin : s.position < source.length) :
    ∃ item? after, s.turn searches = some (item?, after) ∧ Counted source after ∧
      s.position < after.position ∧ Tile.Sound source ⟨s.position, after.position, item?⟩ ∧
      s.remaining = item?.toList ++ after.remaining := by
  obtain ⟨first, rest, hs⟩ := counted.unread_cons hin
  obtain ⟨rfl, hle, hline⟩ := counted
  have hspan : (leading first rest).span <+: s.source.drop s.position := by
    rw [← unread, hs]
    exact leading_initial first rest
  have hsound := sound_of_piece (leading_sound first rest) hspan
  rw [← hline] at hsound
  refine ⟨_, _, turn_eq lawful hs hle rfl, ⟨rfl, turn_inside hs hle, ?_⟩, ?_, hsound,
    remaining_cons hs hle rfl⟩
  · change s.line + lineEnds _ = lineUpTo s.source (s.position + _)
    rw [hline, lineUpTo_add hspan]
  · change s.position < s.position + (_ + 1)
    omega

/-- From any index on the turns go on to the end of the source, and their tiles follow one
another. -/
theorem Counted.turns (lawful : searches.Lawful) {source : List UInt8}
    (counted : Counted source s) :
    ∃ tiles last, Turns searches s tiles last ∧ Counted source last ∧
      last.position = source.length ∧ Consecutive s.position tiles source.length ∧
      (∀ tile ∈ tiles, tile.Sound source) ∧
      s.remaining = tiles.filterMap Tile.item? ++ last.remaining := by
  induction hn : source.length - s.position using Nat.strong_induction_on generalizing s with
  | h n ih =>
    rcases counted.inside.eq_or_lt with hend | hin
    · exact ⟨[], s, .done, counted, hend, hend, by simp, rfl⟩
    · obtain ⟨item?, after, hturn, hafter, hlt, hsound, hremaining⟩ := counted.turn lawful hin
      obtain ⟨tiles, last, hturns, hlast, hend, htiles, hsounds, hrest⟩ :=
        ih _ (by omega) hafter rfl
      refine ⟨_, last, .turn (by rw [counted.source_eq]; exact hin) hturn hturns, hlast, hend,
        ⟨rfl, hlt, htiles⟩, List.forall_mem_cons.mpr ⟨hsound, hsounds⟩, ?_⟩
      rw [hremaining, hrest]
      cases item? <;> rfl

/-- The token at the end of a source. -/
def endToken (source : List UInt8) : Token :=
  ⟨.symbol .endOfSource, "", 1 + lineEnds source⟩

/-- What the tiles say, and at the end the end of the source. -/
def items (source : List UInt8) (tiles : List Tile) : List Item :=
  tiles.filterMap Tile.item? ++ [.token (endToken source)]

/-- A scanner that begins on a source tiles it: the tiles are the turns of its loop, which come to
the end of the source. They lie one after another, none of them is empty, no two overlap, and
together they are the source. A tile says what its stretch has to say. Each call of `next` ends and
gives the next of the items, which are those of the source; and after the last of them, the end of
the source, it gives nothing any more. -/
structure Tiling (searches : Searches) (source : List UInt8) (tiles : List Tile) : Prop where
  turns : ∃ last, Turns searches (new source) tiles last ∧ last.position = source.length
  consecutive : Consecutive 0 tiles source.length
  disjoint : tiles.Pairwise fun a b => a.stop ≤ b.start
  covers : tiles.flatMap (Tile.span source) = source
  sound : ∀ tile ∈ tiles, tile.Sound source
  calls : ∀ count, (new source).call searches count = some (items source tiles)[count]?
  items_eq : items source tiles = Item.ofSource source

/-- Every source is tiled, whatever bytes it consists of. -/
theorem source_tiled {searches : Searches} (lawful : searches.Lawful) (source : List UInt8) :
    ∃ tiles, Tiling searches source tiles := by
  obtain ⟨tiles, last, hturns, hlast, hend, htiles, hsound, hremaining⟩ :=
    (Counted.new source).turns lawful
  have hitems : (new source).remaining = items source tiles := by
    have hline : last.line = 1 + lineEnds source := by
      rw [hlast.line_eq, hend, lineUpTo, List.take_length]
    rw [hremaining, remaining_end (by rw [hlast.source_eq, hend]), items, endToken, hline]
  refine ⟨tiles, ⟨last, hturns, hend⟩, htiles, htiles.disjoint, ?_, hsound, ?_, ?_⟩
  · rw [htiles.covers source]
    simp [new]
  · intro count
    rw [call_eq lawful, hitems]
  · rw [← hitems]
    rfl

/-- A name, a byte that is no text, a string over two lines, and a comment without an end. -/
def ragged : List UInt8 := Text.encode "a" ++ 0xFF :: Text.encode "\"b\nc\" // d\n/* e\n"

theorem ragged_tiled :
    Searches.plain.Lawful ∧ (∃ tiles, Tiling Searches.plain ragged tiles) ∧
      Item.ofSource ragged =
        [.token ⟨.symbol .identifier, "a", 1⟩, .fault (.unexpected "\uFFFD") 1,
          .token ⟨.string "b\nc", "\"b\nc\"", 2⟩, .fault .unterminatedComment 3,
          .token ⟨.symbol .endOfSource, "", 4⟩] := by
  refine ⟨Searches.plain_lawful, source_tiled Searches.plain_lawful ragged, ?_⟩
  with_unfolding_all rfl

end Scanner

end ClassScript
