/-! Characters as bytes. A byte string is cut into characters and into malformed runs, each as long
as some character could still begin with it. -/
namespace ClassScript.Text

/-- A range of bytes. -/
structure ByteRange where
  low : UInt8
  high : UInt8

def ByteRange.holds (r : ByteRange) (b : UInt8) : Bool := r.low ≤ b && b ≤ r.high

/-- The bytes that continue a character. -/
def continuation : ByteRange := ⟨0x80, 0xBF⟩

/-- The bits of the code point that a first byte gives, and the ranges of the bytes that have to
follow it. The second range is narrower where a code point would be written too long, would be a
surrogate or would exceed the last one. -/
def lead? (b : UInt8) : Option (Nat × List ByteRange) :=
  let more := continuation
  if b < 0x80 then some (b.toNat, [])
  else if b < 0xC2 then none
  else if b < 0xE0 then some (b.toNat - 0xC0, [more])
  else if b < 0xF0 then
    let second := if b = 0xE0 then ⟨0xA0, 0xBF⟩ else if b = 0xED then ⟨0x80, 0x9F⟩ else more
    some (b.toNat - 0xE0, [second, more])
  else if b < 0xF5 then
    let second := if b = 0xF0 then ⟨0x90, 0xBF⟩ else if b = 0xF4 then ⟨0x80, 0x8F⟩ else more
    some (b.toNat - 0xF0, [second, more, more])
  else none

/-- What the bytes at some place begin with. -/
inductive Head where
  | char (c : Char)
  /-- Bytes with which no character begins, however it goes on. -/
  | malformed
  /-- Bytes that begin a character and are then at an end. -/
  | cut
  deriving DecidableEq, Repr

/-- Reads the bytes that have to follow a first byte; counts those it reads. -/
def follow (bits count : Nat) : List ByteRange → List UInt8 → Head × Nat
  | [], _ => (.char (.ofNat bits), count)
  | _ :: _, [] => (.cut, count)
  | r :: ranges, b :: bytes =>
    if r.holds b then follow (bits * 64 + b.toNat % 64) (count + 1) ranges bytes
    else (.malformed, count)

/-- What a non-empty byte string begins with, and how many bytes after the first belong to it. -/
def head (first : UInt8) (rest : List UInt8) : Head × Nat :=
  match lead? first with
  | none => (.malformed, 0)
  | some (bits, ranges) => follow bits 0 ranges rest

/-- Decodes bytes to characters; a malformed run becomes one replacement character. -/
def decode : List UInt8 → List Char
  | [] => []
  | first :: rest =>
    match head first rest with
    | (.char c, count) => c :: decode (rest.drop count)
    | (_, count) => '\uFFFD' :: decode (rest.drop count)
termination_by bytes => bytes.length
decreasing_by all_goals (simp only [List.length_cons, List.length_drop]; omega)

def decodeString (bytes : List UInt8) : String := .ofList (decode bytes)

/-- The first place where bytes are not text: its index, and the length of the malformed run, or
none when the bytes end within a character. -/
structure Malformed where
  index : Nat
  length : Option Nat
  deriving DecidableEq, Repr

/-- Decodes bytes that are text throughout. -/
def decodeStrictFrom (index : Nat) : List UInt8 → Except Malformed (List Char)
  | [] => .ok []
  | first :: rest =>
    match head first rest with
    | (.char c, count) => (c :: ·) <$> decodeStrictFrom (index + count + 1) (rest.drop count)
    | (.malformed, count) => .error ⟨index, some (count + 1)⟩
    | (.cut, _) => .error ⟨index, none⟩
termination_by bytes => bytes.length
decreasing_by simp only [List.length_cons, List.length_drop]; omega

def decodeStrict (bytes : List UInt8) : Except Malformed String :=
  .ofList <$> decodeStrictFrom 0 bytes

def Malformed.message (m : Malformed) : String :=
  match m.length with
  | some length =>
    "invalid utf-8 sequence of " ++ length.repr ++ " bytes from index " ++ m.index.repr
  | none => "incomplete utf-8 byte sequence from index " ++ m.index.repr

/-- The bytes of a text. -/
def encode (text : String) : List UInt8 := text.toUTF8.toList

end ClassScript.Text
