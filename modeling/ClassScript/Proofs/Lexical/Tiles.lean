import ClassScript.Proofs.Lexical.Tiling

/-! The tiles of a scanner are the pieces of its source: where a tile stands, the rule of its sort
of piece holds of the bytes behind it. -/
namespace ClassScript

open Piece

namespace Tile

variable {source : List UInt8} {tile : Tile} {piece : Piece} {tiles : List Tile} {start stop : Nat}

/-- The tile is a piece of the source, and says what that piece says. -/
structure Cut (source : List UInt8) (tile : Tile) (piece : Piece) : Prop where
  rule : CutBefore piece (source.drop tile.stop)
  bytes : source.drop tile.start = piece.span ++ source.drop tile.stop
  stop_eq : tile.stop = tile.start + piece.span.length
  item_eq : tile.item? = Item.ofPiece? (lineUpTo source tile.start) piece

theorem Cut.span_eq (cut : Cut source tile piece) : tile.span source = piece.span := by
  rw [span, cut.bytes, cut.stop_eq, Nat.add_sub_cancel_left, List.take_left]

/-- An index of the range that tiles lie in is in one of them. -/
theorem Consecutive.exists_mem (h : Consecutive start tiles stop) {i : Nat} (hstart : start ≤ i)
    (hstop : i < stop) : ∃ tile ∈ tiles, tile.start ≤ i ∧ i < tile.stop := by
  induction tiles generalizing start with
  | nil =>
    obtain rfl : start = stop := h
    omega
  | cons tile tiles ih =>
    obtain ⟨rfl, hlt, hrest⟩ := h
    rcases Nat.lt_or_ge i tile.stop with hi | hi
    · exact ⟨tile, by simp, hstart, hi⟩
    · obtain ⟨other, hm, hother⟩ := ih hrest hi
      exact ⟨other, by simp [hm], hother⟩

/-- The tile has a byte in the range. -/
def Touches (start stop : Nat) (tile : Tile) : Bool := tile.start < stop && start < tile.stop

/-- A range inside a tile is touched by that tile alone. -/
theorem Consecutive.touching {low high : Nat} (h : Consecutive start tiles stop) (hm : tile ∈ tiles)
    (hlow : tile.start ≤ low) (hlt : low < high) (hhigh : high ≤ tile.stop) :
    tiles.filter (Touches low high) = [tile] := by
  obtain ⟨front, back, rfl⟩ := List.append_of_mem hm
  obtain ⟨-, hback, hfront⟩ := List.pairwise_append.mp h.disjoint
  have hbefore : front.filter (Touches low high) = [] := by
    apply List.filter_eq_nil_iff.mpr
    intro other hother
    have := hfront other hother tile (by simp)
    simp [Touches]
    omega
  have hafter : back.filter (Touches low high) = [] := by
    apply List.filter_eq_nil_iff.mpr
    intro other hother
    have := (List.pairwise_cons.mp hback).1 other hother
    simp [Touches]
    omega
  have hhere : Touches low high tile = true := by
    simp [Touches]
    omega
  rw [List.filter_append, List.filter_cons_of_pos hhere, hbefore, hafter, List.nil_append]

end Tile

namespace Scanner

open Tile

variable {searches : Searches} {source : List UInt8} {s last : Scanner} {tiles : List Tile}

/-- A turn reads a piece of the source. -/
theorem Counted.cut (lawful : searches.Lawful) (counted : Counted source s)
    (hin : s.position < source.length) {item? : Option Item} {after : Scanner}
    (hturn : s.turn searches = some (item?, after)) :
    Counted source after ∧ ∃ piece, Cut source ⟨s.position, after.position, item?⟩ piece := by
  obtain ⟨item?', after', hturn', hafter, -⟩ := counted.turn lawful hin
  obtain ⟨rfl, rfl⟩ : item?' = item? ∧ after' = after := by
    rw [hturn', Option.some.injEq, Prod.mk.injEq] at hturn
    exact hturn
  obtain ⟨first, rest, hs⟩ := counted.unread_cons hin
  obtain ⟨rfl, hle, hline⟩ := counted
  obtain ⟨more, hmore, hrule⟩ := leading_cuts first rest
  have hread := turn_eq lawful hs hle rfl
  rw [hturn', Option.some.injEq, Prod.mk.injEq] at hread
  obtain ⟨rfl, rfl⟩ := hread
  have hdrop : s.source.drop (s.position + (leading first rest).span.length) = more := by
    rw [← List.drop_drop, ← unread, hs, hmore, List.drop_left]
  refine ⟨hafter, leading first rest, ?_, ?_, rfl, ?_⟩
  · rw [← hdrop] at hrule
    exact hrule
  · change s.source.drop s.position = _ ++ s.source.drop (s.position + _)
    rw [hdrop, ← hmore, ← hs, unread]
  · rw [← hline]

/-- All tiles of a run of turns are pieces of the source. -/
theorem Turns.cut (lawful : searches.Lawful) (turns : Turns searches s tiles last)
    (counted : Counted source s) : ∀ tile ∈ tiles, ∃ piece, tile.Cut source piece := by
  induction turns with
  | done => simp
  | turn inside turned more ih =>
    rw [counted.source_eq] at inside
    obtain ⟨hafter, hcut⟩ := counted.cut lawful inside turned
    exact List.forall_mem_cons.mpr ⟨hcut, ih hafter⟩

/-- A scanner tiles its source with the pieces of it. -/
theorem tiled_by_pieces (lawful : searches.Lawful) (source : List UInt8) :
    ∃ tiles, Tiling searches source tiles ∧ ∀ tile ∈ tiles, ∃ piece, tile.Cut source piece := by
  obtain ⟨tiles, last, hturns, hlast, hend, htiles, hsound, hremaining⟩ :=
    (Counted.new source).turns lawful
  have hlastRemaining : last.remaining = [.token (endToken source)] := by
    rw [remaining_end (by rw [hlast.source_eq, hend]), hlast.line_eq, hend, lineUpTo,
      List.take_length, endToken]
  have hitems : (new source).remaining = items source tiles := by
    rw [hremaining, hlastRemaining, items]
  exact ⟨tiles,
    { turns := ⟨last, hturns, hend⟩
      consecutive := htiles
      disjoint := htiles.disjoint
      covers := by simpa [new] using htiles.covers source
      sound := hsound
      calls := fun count => by rw [call_eq lawful, hitems]
      items_eq := hitems.symm },
    hturns.cut lawful (Counted.new source)⟩

end Scanner

end ClassScript
