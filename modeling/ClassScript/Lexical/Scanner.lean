import ClassScript.Lexical.Item

/-! A scanner: a position in a source, moved on byte by byte. Every index and every slice is
checked. An operation has no result where one of them is out of range. -/
namespace ClassScript

/-- The searches through bytes that a scanner is given. -/
structure Searches where
  /-- The index of the first occurrence of a byte. -/
  byte? (byte : UInt8) (bytes : List UInt8) : Option Nat
  /-- The first index at which a row of bytes stands. -/
  row? (row bytes : List UInt8) : Option Nat
  /-- The number of occurrences of a byte. -/
  count (byte : UInt8) (bytes : List UInt8) : Nat

/-- Searches that try one index after another. -/
def Searches.plain : Searches where
  byte? byte bytes := bytes.findIdx? (· == byte)
  row? row bytes := (List.range (bytes.length + 1)).find? fun i => row.isPrefixOf (bytes.drop i)
  count byte bytes := bytes.count byte

/-- The bytes from one index up to another. -/
def slice? (bytes : List UInt8) (start stop : Nat) : Option (List UInt8) :=
  if start ≤ stop ∧ stop ≤ bytes.length then some ((bytes.drop start).take (stop - start)) else none

theorem slice?_bounds {bytes part : List UInt8} {start stop : Nat}
    (h : slice? bytes start stop = some part) : start ≤ stop ∧ stop ≤ bytes.length := by
  by_cases hb : start ≤ stop ∧ stop ≤ bytes.length
  · exact hb
  · rw [slice?, if_neg hb] at h
    cases h

structure Scanner where
  source : List UInt8
  /-- The index of the first byte of the stretch that is being read. -/
  start : Nat
  /-- The index after the last byte that is read. -/
  position : Nat
  line : Nat
  /-- The kind of the token that the stretch turned out to be. -/
  pending : Option TokenKind

namespace Scanner

def new (source : List UInt8) : Scanner := ⟨source, 0, 0, 1, none⟩

variable (s : Scanner)

def past (count : Nat) : Scanner := { s with position := s.position + count }

def newLine : Scanner := { s with line := s.line + 1 }

def atEnd : Bool := s.source.length ≤ s.position

def advance : Option (UInt8 × Scanner) := do
  let b ← s.source[s.position]?
  return (b, s.past 1)

/-- The next byte, or zero at the end. -/
def peek : Option UInt8 := if s.atEnd then some 0 else s.source[s.position]?

/-- The byte after the next, or zero when there is none. -/
def peekNext : Option UInt8 :=
  if s.source.length ≤ s.position + 1 then some 0 else s.source[s.position + 1]?

/-- Passes the next byte if it is the expected one. -/
def matchByte (expected : UInt8) : Option (Bool × Scanner) := do
  let next ← s.peek
  if !s.atEnd && next == expected then
    let (_, s) ← s.advance
    return (true, s)
  else return (false, s)

theorem advance_eq_some {s after : Scanner} {b : UInt8} (h : s.advance = some (b, after)) :
    after = s.past 1 ∧ s.position < s.source.length := by
  obtain ⟨c, hc, h⟩ := Option.bind_eq_some_iff.mp h
  cases h
  exact ⟨rfl, (List.getElem?_eq_some_iff.mp hc).1⟩

def advanceWhile (p : UInt8 → Bool) (s : Scanner) : Option Scanner := do
  let next ← s.peek
  if p next then
    match _h : s.advance with
    | some (_, after) => after.advanceWhile p
    | none => none
  else return s
termination_by s.source.length - s.position
decreasing_by
  obtain ⟨rfl, hlt⟩ := advance_eq_some _h
  simp only [past]
  omega

theorem advanceWhile_step (p : UInt8 → Bool) (s : Scanner) :
    s.advanceWhile p = do
      let next ← s.peek
      if p next then
        let (_, after) ← s.advance
        after.advanceWhile p
      else return s := by
  rw [advanceWhile]
  congr
  funext next
  split
  · split <;> simp [*]
  · rfl

/-- Passes the bytes of a string, up to the quote that ends it. -/
def advanceString (s : Scanner) : Option Scanner := do
  let next ← s.peek
  if !s.atEnd && next != '"'.toUInt8 then
    match _h : s.advance with
    | some (b, after) => (if b == Piece.newline then after.newLine else after).advanceString
    | none => none
  else return s
termination_by s.source.length - s.position
decreasing_by
  obtain ⟨rfl, hlt⟩ := advance_eq_some _h
  split <;> simp only [past, newLine] <;> omega

theorem advanceString_step (s : Scanner) :
    s.advanceString = do
      let next ← s.peek
      if !s.atEnd && next != '"'.toUInt8 then
        let (b, after) ← s.advance
        (if b == Piece.newline then after.newLine else after).advanceString
      else return s := by
  rw [advanceString]
  congr
  funext next
  split
  · split <;> simp [*]
  · rfl

def text (start stop : Nat) : Option String := Text.decodeString <$> slice? s.source start stop

/-- What reading a stretch comes to: a fault and the line it is reported on, or none. -/
abbrev Scanned := Option (LexFault × Nat) × Scanner

def found (kind : TokenKind) : Scanned := (none, { s with pending := some kind })

def fault (cause : LexFault) : Scanned := (some (cause, s.line), s)

/-- The bytes that end a comment. -/
def closer : List UInt8 := ['*'.toUInt8, '/'.toUInt8]

/-- The longer symbol if the next byte is its second one, and else the shorter. -/
def either (second : UInt8) (double single : Symbol) : Option Scanned := do
  let (both, s) ← s.matchByte second
  return s.found (.symbol (if both then double else single))

/-- Passes a comment up to the end of its line. -/
def skipLine (searches : Searches) : Option Scanned := do
  let rest ← slice? s.source s.position s.source.length
  match searches.byte? Piece.newline rest with
  | some count => return (none, s.past count)
  | none => return (none, { s with position := s.source.length })

/-- Passes a comment whose opener is read. -/
def skipBlock (searches : Searches) : Option Scanned := do
  let rest ← slice? s.source s.position s.source.length
  match searches.row? closer rest with
  | none =>
    let lines := searches.count Piece.newline rest
    let after := { s with line := s.line + lines, position := s.source.length }
    return (some (.unterminatedComment, s.line), after)
  | some count =>
    let body ← slice? rest 0 count
    let lines := searches.count Piece.newline body
    return (none, { s with line := s.line + lines, position := s.position + (count + 2) })

/-- Reads on from a slash, which begins a comment or is an operator. -/
def parseSlash (searches : Searches) : Option Scanned := do
  let (line, s) ← s.matchByte '/'.toUInt8
  if line then s.skipLine searches
  else
    let (block, s) ← s.matchByte '*'.toUInt8
    if block then s.skipBlock searches else return s.found (.symbol .slash)

def parseString : Option Scanned := do
  let s ← s.advanceString
  if s.atEnd then return s.fault .unterminatedString
  else
    let (_, s) ← s.advance
    let value ← s.text (s.start + 1) (s.position - 1)
    return s.found (.string value)

/-- Passes a point and the digits after it, if there are any. -/
def advancePlaces : Option Scanner := do
  let point ← s.peek
  let digit ← s.peekNext
  if point == '.'.toUInt8 && Number.isDigit digit then
    let (_, s) ← s.advance
    s.advanceWhile Number.isDigit
  else return s

def parseNumber : Option Scanned := do
  let s ← s.advanceWhile Number.isDigit
  let s ← s.advancePlaces
  let bytes ← slice? s.source s.start s.position
  let whole := bytes.takeWhile Number.isDigit
  return s.found (.number (Number.ofNumeral whole (bytes.drop (whole.length + 1))))

def parseWord : Option Scanned := do
  let s ← s.advanceWhile Piece.isWord
  let word ← s.text s.start s.position
  return s.found (.symbol (.ofWord word))

/-- Reads on from a byte that begins no word and no literal. -/
def parseOperator (b : UInt8) : Option Scanned :=
  if b == '!'.toUInt8 then do
    let (double, s) ← s.matchByte '!'.toUInt8
    if double then return s.found (.symbol .doubleBang)
    else s.either '='.toUInt8 .bangEqual .bang
  else if b == '='.toUInt8 then s.either '='.toUInt8 .equalEqual .equal
  else if b == '<'.toUInt8 then s.either '='.toUInt8 .lessEqual .less
  else if b == '>'.toUInt8 then s.either '='.toUInt8 .greaterEqual .greater
  else if b == '?'.toUInt8 then do
    let (double, s) ← s.matchByte '?'.toUInt8
    if double then return s.found (.symbol .coalesce)
    else return s.fault (.unexpected "?")
  else
    match Symbol.singles.find? fun entry => entry.1.toUInt8 == b with
    | some entry => return s.found (.symbol entry.2)
    | none => do
      -- the other bytes of a character are no faults of their own
      let s ← s.advanceWhile Text.continuation.holds
      let character ← s.text s.start s.position
      return s.fault (.unexpected character)

/-- The scanner where a stretch begins. -/
def begun : Scanner := { s with start := s.position, pending := none }

/-- Reads one stretch: a blank, a comment, a token or a fault. -/
def scanToken (searches : Searches) : Option Scanned := do
  let (b, s) ← s.advance
  if b == Piece.newline then return (none, s.newLine)
  else if Piece.isBlank b then return (none, s)
  else if b == '/'.toUInt8 then s.parseSlash searches
  else if b == '"'.toUInt8 then s.parseString
  else if Number.isDigit b then s.parseNumber
  else if Piece.isWordStart b then s.parseWord
  else s.parseOperator b

/-- One turn of the loop below: what the next stretch says, if it says anything. -/
def turn (searches : Searches) : Option (Option Item × Scanner) := do
  let (fault?, s) ← s.begun.scanToken searches
  match fault?, s.pending with
  | some (cause, line), _ => return (some (.fault cause line), s)
  | none, some kind =>
    let lexeme ← s.text s.start s.position
    return (some (.token ⟨kind, lexeme, s.line⟩), { s with pending := none })
  | none, none => return (none, s)

end Scanner

end ClassScript
