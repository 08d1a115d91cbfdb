import ClassScript.Lexical.Iteration
import ClassScript.Proofs.Lexical.Stretches

/-! One turn of a scanner's loop reads the piece that the bytes left begin with. So the calls of
`next` give the items of the source, one after another, and after them nothing. -/
namespace ClassScript.Scanner

open Piece

variable {searches : Searches} {s : Scanner} {first : UInt8} {rest : List UInt8}

/-- Reading a stretch reads the piece that the bytes left begin with. -/
theorem scanToken_eq (lawful : searches.Lawful) (hs : s.unread = first :: rest)
    (hin : s.position ≤ s.source.length) (hstart : s.start = s.position) :
    s.scanToken searches = some (s.reported (leading first rest)) := by
  rw [scanToken, advance_eq hs]
  simp only [Option.bind_eq_bind, Option.bind_some]
  by_cases hn : first = newline
  · subst hn
    rw [if_pos (by decide), leading_blank (by decide)]
    rfl
  rw [if_neg (by simpa using hn)]
  by_cases hblank : isBlank first = true
  · have hline : lineEnds [first] = 0 := by simp [lineEnds, hn]
    rw [if_pos hblank, leading_blank hblank]
    exact congrArg (fun after => some (none, after)) (past_eq_beyond hline)
  rw [if_neg hblank]
  rw [Bool.not_eq_true] at hblank
  by_cases hslash : first = '/'.toUInt8
  · subst hslash
    rw [if_pos (by decide)]
    exact parseSlash_eq lawful hs hin
  rw [if_neg (by simpa using hslash)]
  by_cases hquote : first = '"'.toUInt8
  · subst hquote
    rw [if_pos (by decide)]
    exact parseString_eq hs hin hstart
  rw [if_neg (by simpa using hquote)]
  by_cases hdigit : Number.isDigit first = true
  · rw [if_pos hdigit, leading_number hblank hslash hquote hdigit rfl]
    exact parseNumber_eq hs hin hstart hdigit rfl rfl
  rw [if_neg hdigit]
  rw [Bool.not_eq_true] at hdigit
  by_cases hword : isWordStart first = true
  · rw [if_pos hword, leading_word hblank hslash hquote hdigit hword rfl]
    exact parseWord_eq hs hin hstart (by simp [isWord, hword]) rfl
  rw [if_neg hword]
  rw [Bool.not_eq_true] at hword
  rw [parseOperator_eq hs hin hstart hn,
    leading_operator hblank (fun h => absurd h hslash) hquote hdigit hword]

/-- A turn reads the piece that the bytes left begin with, and says what that piece says. -/
theorem turn_eq (lawful : searches.Lawful) (hs : s.unread = first :: rest)
    (hin : s.position ≤ s.source.length) {piece : Piece} (hpiece : leading first rest = piece) :
    s.turn searches = some (Item.ofPiece? s.line piece, s.begun.beyond piece.span) := by
  have hspan : piece.span <+: s.unread := by
    rw [hs, ← hpiece]
    exact leading_initial first rest
  have hscan : s.begun.scanToken searches = some (s.begun.reported piece) := by
    rw [← hpiece]
    exact scanToken_eq lawful hs hin rfl
  have htext : (s.begun.beyond piece.span).text s.position (s.begun.beyond piece.span).position =
      some (Text.decodeString piece.span) := text_beyond (s := s.begun) hspan hin rfl
  rw [turn, hscan]
  obtain ⟨part, span⟩ := piece
  cases part with
  | blank => rfl
  | comment => rfl
  | token kind =>
    change ((s.begun.beyond span).text s.position (s.begun.beyond span).position).bind _ = _
    rw [htext]
    rfl
  | fault cause => cases cause <;> rfl

/-- A turn stays in the source. -/
theorem turn_inside (hs : s.unread = first :: rest) (hin : s.position ≤ s.source.length) :
    s.position + (leading first rest).span.length ≤ s.source.length := by
  have hend := position_end hin
  have hspan := (leading_initial first rest).length_le
  rw [hs] at hend
  omega

theorem unread_eq_nil (hin : s.position ≤ s.source.length) :
    s.unread = [] ↔ s.position = s.source.length := by
  rw [← List.length_eq_zero_iff, length_unread]
  omega

/-- The items that a scanner has still to give. -/
def remaining (s : Scanner) : List Item :=
  if s.position ≤ s.source.length then Item.ofPieces s.line (cut s.unread) else []

theorem remaining_past (hin : s.source.length < s.position) : s.remaining = [] :=
  if_neg (by omega)

theorem remaining_end (hin : s.position = s.source.length) :
    s.remaining = [.token ⟨.symbol .endOfSource, "", s.line⟩] := by
  rw [remaining, if_pos (by omega), (unread_eq_nil (by omega)).mpr hin, cut_nil]
  rfl

/-- What remains is what the next piece says, and what remains after it. -/
theorem remaining_cons (hs : s.unread = first :: rest) (hin : s.position ≤ s.source.length)
    {piece : Piece} (hpiece : leading first rest = piece) :
    s.remaining =
      (Item.ofPiece? s.line piece).toList ++ (s.begun.beyond piece.span).remaining := by
  have hin' : (s.begun.beyond piece.span).position ≤ (s.begun.beyond piece.span).source.length := by
    rw [← hpiece]
    exact turn_inside hs hin
  have hunread : (s.begun.beyond piece.span).unread = (first :: rest).drop piece.span.length := by
    rw [unread_beyond, ← hs]
    rfl
  rw [remaining, if_pos hin, hs, cut_leading, hpiece, Item.ofPieces]
  rw [remaining, if_pos hin', hunread]
  cases Item.ofPiece? s.line piece <;> rfl

/-- A call of `next` ends. It gives the first of the items that remain, if any do, and leaves the
others. -/
theorem next_eq (lawful : searches.Lawful) (s : Scanner) :
    ∃ after, s.next searches = some (s.remaining.head?, after) ∧
      after.remaining = s.remaining.tail := by
  -- turns that say nothing are gone through by the number of bytes left
  induction hn : s.unread.length using Nat.strong_induction_on generalizing s with
  | h n ih =>
    rcases Nat.lt_trichotomy s.source.length s.position with hin | hin | hin
    · rw [next, if_neg (by omega), remaining_past hin]
      exact ⟨s, rfl, remaining_past hin⟩
    · rw [next, if_pos (by omega), if_pos (by simpa using hin.symm), remaining_end hin.symm]
      exact ⟨s.past 1, rfl, remaining_past (by simp only [past]; omega)⟩
    · obtain ⟨first, rest, hs⟩ : ∃ first rest, s.unread = first :: rest := by
        apply List.exists_cons_of_ne_nil
        rw [Ne, unread_eq_nil hin.le]
        omega
      rw [next, if_pos hin.le, if_neg (by simp; omega), turn_eq lawful hs hin.le rfl,
        remaining_cons hs hin.le rfl]
      cases Item.ofPiece? s.line (leading first rest) with
      | some item => exact ⟨_, rfl, rfl⟩
      | none =>
        have hless : (s.begun.beyond (leading first rest).span).unread.length < n := by
          have := length_unread (s := s)
          rw [unread_beyond, List.length_drop, ← hn]
          change s.unread.length - ((rest.take _).length + 1) < s.unread.length
          omega
        exact ih _ hless _ rfl

/-- Every call of `next` ends, and the calls give the items that remain, one after another. -/
theorem call_eq (lawful : searches.Lawful) (count : Nat) (s : Scanner) :
    s.call searches count = some s.remaining[count]? := by
  induction count generalizing s with
  | zero =>
    obtain ⟨after, hnext, -⟩ := next_eq lawful s
    rw [call, hnext, ← List.head?_eq_getElem?]
    rfl
  | succ count ih =>
    obtain ⟨after, hnext, hafter⟩ := next_eq lawful s
    rw [call, hnext, ← List.getElem?_tail, ← hafter]
    exact ih after

end ClassScript.Scanner
