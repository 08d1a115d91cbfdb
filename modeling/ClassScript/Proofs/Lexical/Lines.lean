import ClassScript.Proofs.Lexical.Tiling

/-! Sources joined by a line end. Between two pieces a scanner knows of nothing but its place and
its line, and no piece that has an end reads past the line end; so the items of the parts make up
those of the whole, with the lines of the second part counted on. -/
namespace ClassScript

open Piece

namespace Item

/-- The item, some lines further down. -/
def later (count : Nat) : Item → Item
  | token t => token { t with line := t.line + count }
  | fault cause line => fault cause (line + count)

theorem ofPiece?_token {line : Nat} {piece : Piece} {t : Token}
    (h : ofPiece? line piece = some (.token t)) :
    piece.part = .token t.kind ∧ t.lexeme = Text.decodeString piece.span := by
  obtain ⟨part, span⟩ := piece
  cases part with
  | token kind =>
    cases h
    exact ⟨rfl, rfl⟩
  | fault cause => cases cause <;> cases h
  | _ => cases h

theorem ofPiece?_fault {line : Nat} {piece : Piece} :
    (∃ cause line', ofPiece? line piece = some (.fault cause line')) ↔
      ∃ cause, piece.part = .fault cause := by
  obtain ⟨part, span⟩ := piece
  cases part with
  | fault cause => cases cause <;> simp [ofPiece?]
  | _ => simp [ofPiece?]

/-- What pieces say that begin on a line, without the end of the source. -/
def said (line : Nat) : List Piece → List Item
  | [] => []
  | piece :: pieces => (ofPiece? line piece).toList ++ said (line + lineEnds piece.span) pieces

theorem ofPieces_cons (line : Nat) (piece : Piece) (pieces : List Piece) :
    ofPieces line (piece :: pieces) =
      (ofPiece? line piece).toList ++ ofPieces (line + lineEnds piece.span) pieces := by
  rw [ofPieces]
  cases ofPiece? line piece <;> rfl

theorem ofPieces_append (line : Nat) (front back : List Piece) :
    ofPieces line (front ++ back) =
      said line front ++ ofPieces (line + lineEnds (front.flatMap span)) back := by
  induction front generalizing line with
  | nil => rfl
  | cons piece pieces ih =>
    rw [List.cons_append, ofPieces_cons, ih, said, List.append_assoc, List.flatMap_cons,
      lineEnds_append, Nat.add_assoc]

theorem ofPieces_eq (line : Nat) (pieces : List Piece) :
    ofPieces line pieces = said line pieces ++
      [.token ⟨.symbol .endOfSource, "", line + lineEnds (pieces.flatMap span)⟩] := by
  have h := ofPieces_append line pieces []
  rwa [List.append_nil] at h

/-- What a source says is what its pieces say, and then its end. -/
theorem ofSource_eq (source : List UInt8) :
    ofSource source = said 1 (cut source) ++ [.token (Scanner.endToken source)] := by
  rw [ofSource, ofPieces_eq, flatMap_span_cut, Scanner.endToken]

theorem ofPiece?_later (line count : Nat) (piece : Piece) :
    ofPiece? (line + count) piece = (ofPiece? line piece).map (later count) := by
  have hline : line + count + lineEnds piece.span = line + lineEnds piece.span + count := by omega
  obtain ⟨part, span⟩ := piece
  cases part with
  | blank => rfl
  | comment => rfl
  | token kind => simp only [ofPiece?, hline, Option.map_some, later]
  | fault cause => cases cause <;> simp only [ofPiece?, hline, Option.map_some, later]

/-- Pieces that begin some lines further down say the same, those lines further down. -/
theorem ofPieces_later (line count : Nat) (pieces : List Piece) :
    ofPieces (line + count) pieces = (ofPieces line pieces).map (later count) := by
  induction pieces generalizing line with
  | nil => rfl
  | cons piece pieces ih =>
    have hline : line + count + lineEnds piece.span = line + lineEnds piece.span + count := by omega
    rw [ofPieces_cons, ofPieces_cons, ofPiece?_later, hline, ih, List.map_append]
    cases ofPiece? line piece <;> rfl

/-- A piece without its end is reported as such. -/
theorem said_unclosed {line : Nat} {piece : Piece} {pieces : List Piece} (hm : piece ∈ pieces)
    (h : piece.Unclosed) : ∃ cause line', .fault cause line' ∈ said line pieces ∧
      (cause = .unterminatedString ∨ cause = .unterminatedComment) := by
  induction pieces generalizing line with
  | nil => cases hm
  | cons other pieces ih =>
    rcases List.mem_cons.mp hm with rfl | hm
    · obtain ⟨part, span⟩ := piece
      obtain rfl | rfl : part = _ ∨ part = _ := h
      · exact ⟨.unterminatedString, line + lineEnds span, by simp [said, ofPiece?], .inl rfl⟩
      · exact ⟨.unterminatedComment, line, by simp [said, ofPiece?], .inr rfl⟩
    · obtain ⟨cause, line', hfault, hcause⟩ := ih hm
      exact ⟨cause, line', by rw [said]; exact List.mem_append_right _ hfault, hcause⟩

end Item

/-- Where no piece of the first part lacks its end, the pieces of the parts are those of the whole,
with the line end between them. -/
theorem Piece.cut_append_newline {before : List UInt8}
    (closed : ∀ piece ∈ cut before, ¬ piece.Unclosed) (after : List UInt8) :
    cut (before ++ newline :: after) = cut before ++ ⟨.blank, [newline]⟩ :: cut after := by
  generalize hcut : cut before = pieces at closed
  induction pieces generalizing before with
  | nil =>
    obtain rfl : before = [] := by
      rw [← flatMap_span_cut before, hcut, List.flatMap_nil]
    exact (CutBefore.blank rfl after).cut_eq
  | cons piece pieces ih =>
    obtain ⟨rest, rfl, hpiece, hrest⟩ := cut_eq_cons hcut
    obtain ⟨hclosed, hpieces⟩ := List.forall_mem_cons.mp closed
    rw [List.append_assoc, (hpiece.append_newline hclosed after).cut_eq, ih hrest hpieces,
      List.cons_append]

/-- The items of two sources with a line end between them are those of the first one without its end
and those of the second one, as many lines further down as the first one and the line end take up.
Only a string or a comment of the first one that lacks its end would go on. -/
theorem Item.ofSource_joined {before : List UInt8}
    (closed : ∀ cause line, .fault cause line ∈ ofSource before →
      cause ≠ .unterminatedString ∧ cause ≠ .unterminatedComment) (after : List UInt8) :
    ∃ items, ofSource before = items ++ [.token (Scanner.endToken before)] ∧
      ofSource (before ++ newline :: after) =
        items ++ (ofSource after).map (later (lineEnds before + 1)) := by
  refine ⟨said 1 (cut before), ofSource_eq before, ?_⟩
  have hcut : ∀ piece ∈ cut before, ¬ piece.Unclosed := by
    intro piece hm h
    obtain ⟨cause, line, hfault, hcause⟩ := said_unclosed hm h
    have hitem : .fault cause line ∈ ofSource before := by
      rw [ofSource_eq]
      exact List.mem_append_left _ hfault
    obtain ⟨hstring, hcomment⟩ := closed cause line hitem
    exact hcause.elim hstring hcomment
  have hline : 1 + lineEnds before + lineEnds [newline] = 1 + (lineEnds before + 1) := by
    rw [show lineEnds [newline] = 1 from rfl, Nat.add_assoc]
  calc ofSource (before ++ newline :: after)
      = said 1 (cut before) ++
          ofPieces (1 + lineEnds before) (⟨.blank, [newline]⟩ :: cut after) := by
        rw [ofSource, cut_append_newline hcut, ofPieces_append, flatMap_span_cut]
    _ = said 1 (cut before) ++ ofPieces (1 + (lineEnds before + 1)) (cut after) := by
        rw [ofPieces_cons, hline]
        rfl
    _ = said 1 (cut before) ++ (ofSource after).map (later (lineEnds before + 1)) := by
        rw [ofPieces_later, ofSource]

namespace Scanner

/-- A mark that is no token alone, and a comment that ends with its line. -/
def upper : List UInt8 := Text.encode "a ?\n/ // b"

/-- A string over two lines that lacks its end. -/
def lower : List UInt8 := Text.encode "\"c\nd"

theorem upper_lower_joined :
    (∀ cause line, .fault cause line ∈ Item.ofSource upper →
      cause ≠ .unterminatedString ∧ cause ≠ .unterminatedComment) ∧
    (∃ items, Item.ofSource upper = items ++ [.token (endToken upper)] ∧
      Item.ofSource (upper ++ newline :: lower) =
        items ++ (Item.ofSource lower).map (Item.later (lineEnds upper + 1))) ∧
    Item.ofSource (upper ++ newline :: lower) =
      [.token ⟨.symbol .identifier, "a", 1⟩, .fault (.unexpected "?") 1,
        .token ⟨.symbol .slash, "/", 2⟩, .fault .unterminatedString 4,
        .token ⟨.symbol .endOfSource, "", 4⟩] := by
  have hupper : Item.ofSource upper = [.token ⟨.symbol .identifier, "a", 1⟩,
      .fault (.unexpected "?") 1, .token ⟨.symbol .slash, "/", 2⟩,
      .token ⟨.symbol .endOfSource, "", 2⟩] := by with_unfolding_all rfl
  have closed : ∀ cause line, .fault cause line ∈ Item.ofSource upper →
      cause ≠ .unterminatedString ∧ cause ≠ .unterminatedComment := by
    intro cause line hm
    obtain ⟨rfl, rfl⟩ : cause = .unexpected "?" ∧ line = 1 := by simpa [hupper] using hm
    exact ⟨LexFault.noConfusion, LexFault.noConfusion⟩
  refine ⟨closed, Item.ofSource_joined closed lower, ?_⟩
  with_unfolding_all rfl

end Scanner

end ClassScript
