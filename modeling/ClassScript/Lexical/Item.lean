import ClassScript.Lexical.Piece

/-! What a source says: its tokens and its faults, with their lines, and an end-of-source token at
the end. -/
namespace ClassScript

/-- A token, or a fault with the line it is reported on. -/
inductive Item where
  | token (t : Token)
  | fault (cause : LexFault) (line : Nat)

namespace Item

/-- What a piece says, given the line it begins on. A token is on the line it ends on, and so is a
fault, but for a comment without an end: its fault is on the line of the opener. -/
def ofPiece? (line : Nat) (piece : Piece) : Option Item :=
  let last := line + Piece.lineEnds piece.span
  match piece.part with
  | .blank | .comment => none
  | .token kind => some (.token ⟨kind, Text.decodeString piece.span, last⟩)
  | .fault .unterminatedComment => some (.fault .unterminatedComment line)
  | .fault cause => some (.fault cause last)

/-- The items of pieces that begin on a line. -/
def ofPieces (line : Nat) : List Piece → List Item
  | [] => [.token ⟨.symbol .endOfSource, "", line⟩]
  | piece :: pieces =>
    let more := ofPieces (line + Piece.lineEnds piece.span) pieces
    match ofPiece? line piece with
    | some item => item :: more
    | none => more

/-- The items of a source. -/
def ofSource (source : List UInt8) : List Item := ofPieces 1 (Piece.cut source)

def token? : Item → Option Token
  | token t => some t
  | fault _ _ => none

def fault? : Item → Option (LexFault × Nat)
  | token _ => none
  | fault cause line => some (cause, line)

end Item

/-- The tokens of a source, or all of its faults if it has any. -/
def tokens (source : List UInt8) : Except (List (LexFault × Nat)) (List Token) :=
  let items := Item.ofSource source
  match items.filterMap Item.fault? with
  | [] => .ok (items.filterMap Item.token?)
  | faults => .error faults

end ClassScript
