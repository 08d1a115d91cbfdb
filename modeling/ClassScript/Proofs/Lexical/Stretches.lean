import ClassScript.Proofs.Lexical.Pieces
import ClassScript.Proofs.Lexical.Searches

/-! What each operation of a scanner does to the bytes that are left to read: it has a result, and
it reads what a piece of that sort consists of. -/
namespace ClassScript.Scanner

open Piece

variable {searches : Searches} {s : Scanner} {first : UInt8} {rest : List UInt8}

/-- The bytes that are left to read. -/
def unread (s : Scanner) : List UInt8 := s.source.drop s.position

/-- The scanner with some more bytes read. -/
def beyond (s : Scanner) (span : List UInt8) : Scanner :=
  { s with position := s.position + span.length, line := s.line + lineEnds span }

theorem past_past (a b : Nat) : (s.past a).past b = s.past (a + b) := by simp [past, Nat.add_assoc]

theorem beyond_beyond (a b : List UInt8) : (s.beyond a).beyond b = s.beyond (a ++ b) := by
  simp [beyond, Nat.add_assoc]

theorem past_eq_beyond {span : List UInt8} (h : lineEnds span = 0) :
    s.past span.length = s.beyond span := by
  simp [past, beyond, h]

theorem past_beyond {read : List UInt8} (h : lineEnds read = 0) (span : List UInt8) :
    (s.past read.length).beyond span = s.beyond (read ++ span) := by
  rw [past_eq_beyond h, beyond_beyond]

theorem unread_beyond (span : List UInt8) : (s.beyond span).unread = s.unread.drop span.length := by
  simp [unread, beyond, List.drop_drop]

theorem unread_past (count : Nat) : (s.past count).unread = s.unread.drop count := by
  simp [unread, past, List.drop_drop]

theorem length_unread : s.unread.length = s.source.length - s.position := by simp [unread]

theorem atEnd_eq : s.atEnd = s.unread.isEmpty := by
  rw [Bool.eq_iff_iff]
  simp [atEnd, unread]

theorem peek_eq : s.peek = some (s.unread.head?.getD 0) := by
  simp only [peek, atEnd, unread, List.head?_drop, decide_eq_true_eq]
  split
  · simp [*]
  · simp_all

theorem peekNext_eq : s.peekNext = some (s.unread.tail.head?.getD 0) := by
  simp only [peekNext, unread, List.tail_drop, List.head?_drop]
  split
  · simp [*]
  · simp_all

theorem advance_eq (h : s.unread = first :: rest) : s.advance = some (first, s.past 1) := by
  have hb : s.source[s.position]? = some first := by rw [← List.head?_drop, ← unread, h]; rfl
  simp [advance, hb]

theorem matchByte_eq (expected : UInt8) :
    s.matchByte expected =
      some (if s.unread.head? == some expected then (true, s.past 1) else (false, s)) := by
  simp only [matchByte, peek_eq, atEnd_eq]
  cases h : s.unread with
  | nil => simp
  | cons b rest =>
    by_cases hb : b = expected <;> simp [hb, advance_eq h]

theorem advanceWhile_eq {p : UInt8 → Bool} (hp : p 0 = false) :
    s.advanceWhile p = some (s.past (s.unread.takeWhile p).length) := by
  generalize hl : s.unread = l
  induction l generalizing s with
  | nil => rw [advanceWhile_step]; simp [peek_eq, hl, hp, past]
  | cons b rest ih =>
    have hr : (s.past 1).unread = rest := by simp [unread_past, hl]
    rw [advanceWhile_step]
    by_cases hb : p b = true
    · simp [peek_eq, hl, hb, advance_eq hl, ih hr, past_past, Nat.add_comm]
    · simp [peek_eq, hl, hb, past]

theorem advanceString_eq :
    s.advanceString = some (s.beyond (s.unread.takeWhile (· != '"'.toUInt8))) := by
  generalize hl : s.unread = l
  induction l generalizing s with
  | nil => rw [advanceString_step]; simp [peek_eq, atEnd_eq, hl, beyond, lineEnds]
  | cons b rest ih =>
    rw [advanceString_step]
    by_cases hb : b = '"'.toUInt8
    · simp [peek_eq, atEnd_eq, hl, hb, beyond, lineEnds]
    · have ho : (if b == newline then (s.past 1).newLine else s.past 1) = s.beyond [b] := by
        by_cases hn : b = newline <;> simp [beyond, past, newLine, lineEnds, hn]
      have hr : (s.beyond [b]).unread = rest := by simp [unread_beyond, hl]
      simp only [peek_eq, atEnd_eq, hl, advance_eq hl, Option.bind_eq_bind, Option.bind_some, ho]
      simp [hb, ih hr, beyond_beyond]

/-- A slice of bytes that are not read yet. -/
theorem slice?_unread {count : Nat} (h : count ≤ s.unread.length)
    (hin : s.position ≤ s.source.length) :
    slice? s.source s.position (s.position + count) = some (s.unread.take count) := by
  rw [length_unread] at h
  simp [slice?, unread]
  omega

theorem position_end (hin : s.position ≤ s.source.length) :
    s.position + s.unread.length = s.source.length := by
  rw [length_unread]
  omega

theorem slice?_rest (hin : s.position ≤ s.source.length) :
    slice? s.source s.position s.source.length = some s.unread := by
  have h := slice?_unread (Nat.le_refl s.unread.length) hin
  rwa [position_end hin, List.take_length] at h

/-- What a scanner reports of a piece that it has read from where it stands. -/
def reported (s : Scanner) (piece : Piece) : Scanned :=
  match piece.part with
  | .blank | .comment => (none, s.beyond piece.span)
  | .token kind => (s.beyond piece.span).found kind
  | .fault .unterminatedComment => (some (.unterminatedComment, s.line), s.beyond piece.span)
  | .fault cause => (s.beyond piece.span).fault cause

theorem skipLine_eq (lawful : searches.Lawful) (hin : s.position ≤ s.source.length) :
    s.skipLine searches = some (none, s.beyond (s.unread.takeWhile (· != newline))) := by
  have hl := lineEnds_takeWhile (p := (· != newline)) (by simp) s.unread
  simp only [skipLine, slice?_rest hin, Option.bind_eq_bind, Option.bind_some]
  cases h : searches.byte? newline s.unread with
  | some count =>
    obtain ⟨hc, hb⟩ := lawful.byte_some h
    obtain ⟨hlt, -⟩ := List.getElem?_eq_some_iff.mp hc
    rw [← past_eq_beyond hl, takeWhile_ne_of_first hc hb, List.length_take_of_le hlt.le]
    rfl
  | none =>
    rw [← past_eq_beyond hl, takeWhile_ne_of_notMem (lawful.byte_none h), past, position_end hin]
    rfl

theorem skipBlock_eq (lawful : searches.Lawful) (hin : s.position ≤ s.source.length) :
    s.skipBlock searches =
      some (match closer? s.unread with
        | some count => (none, s.beyond (s.unread.take count))
        | none => (some (.unterminatedComment, s.line), s.beyond s.unread)) := by
  simp only [skipBlock, slice?_rest hin, Option.bind_eq_bind, Option.bind_some]
  cases h : searches.row? closer s.unread with
  | some count =>
    obtain ⟨hc, hb⟩ := lawful.row_some h
    obtain ⟨more, hm⟩ := hc
    have hlen : count + 2 ≤ s.unread.length := by
      have := congrArg List.length hm
      simp [closer] at this
      omega
    have htake : s.unread.take (count + 2) = s.unread.take count ++ closer := by
      rw [List.take_add, ← hm]
      rfl
    have hslice : slice? s.unread 0 count = some (s.unread.take count) := by
      simp [slice?]
      omega
    have hbeyond : s.beyond (s.unread.take (count + 2)) =
        { s with position := s.position + (count + 2),
                 line := s.line + lineEnds (s.unread.take count) } := by
      have hend : lineEnds closer = 0 := by decide
      rw [beyond, List.length_take_of_le hlen, htake, lineEnds_append, hend]
      rfl
    simp only [closer?_eq_some ⟨more, hm⟩ hb, hbeyond, hslice, lawful.count_eq, Option.bind_some]
    rfl
  | none =>
    simp [closer?_eq_none (lawful.row_none h), lawful.count_eq, beyond, lineEnds, position_end hin]

theorem advancePlaces_eq : s.advancePlaces = some (s.past (places s.unread).length) := by
  have hd : Number.isDigit 0 = false := by decide
  simp only [advancePlaces, peek_eq, peekNext_eq, Option.bind_eq_bind, Option.bind_some]
  cases h : s.unread with
  | nil => simp [places, past, hd]
  | cons b more =>
    have hdigit : Number.isDigit (more.head?.getD 0) = more.head?.any Number.isDigit := by
      cases more <;> simp [hd]
    have hr : (s.past 1).unread = more := by simp [unread_past, h]
    simp only [List.head?_cons, List.tail_cons, Option.getD_some, hdigit, advance_eq h,
      Option.bind_some, advanceWhile_eq hd, hr, places]
    split
    · simp [past_past, Nat.add_comm]
    · simp [past]

/-- The stretch that is read is what a scanner has passed since it stood at its start. -/
theorem slice?_beyond {span : List UInt8} (hspan : span <+: s.unread)
    (hin : s.position ≤ s.source.length) (hstart : s.start = s.position) :
    slice? (s.beyond span).source (s.beyond span).start (s.beyond span).position = some span := by
  have h := slice?_unread hspan.length_le hin
  rw [← List.prefix_iff_eq_take.mp hspan] at h
  simpa only [beyond, hstart] using h

theorem text_beyond {span : List UInt8} (hspan : span <+: s.unread)
    (hin : s.position ≤ s.source.length) (hstart : s.start = s.position) :
    (s.beyond span).text (s.beyond span).start (s.beyond span).position =
      some (Text.decodeString span) := by
  rw [text, slice?_beyond hspan hin hstart]
  rfl

/-- The scanner after a first byte and more bytes, none of which is a line end. -/
theorem past_past_eq_beyond {more : List UInt8} (h : lineEnds (first :: more) = 0) :
    (s.past 1).past more.length = s.beyond (first :: more) := by
  rw [← past_eq_beyond h, past_past, List.length_cons, Nat.add_comm]

/-- Behind the first quote of a string its bytes are passed, with the line ends among them. -/
theorem advanceString_past (hs : s.unread = '"'.toUInt8 :: rest) {body : List UInt8}
    (hbody : rest.takeWhile (· != '"'.toUInt8) = body) :
    (s.past 1).advanceString = some (s.beyond ('"'.toUInt8 :: body)) := by
  have hr : (s.past 1).unread = rest := by simp [unread_past, hs]
  have hquote : lineEnds ['"'.toUInt8] = 0 := by decide
  rw [advanceString_eq, hr, hbody]
  exact congrArg some (past_beyond hquote body)

theorem parseString_unclosed (hs : s.unread = '"'.toUInt8 :: rest)
    (hrest : rest.takeWhile (· != '"'.toUInt8) = rest) :
    (s.past 1).parseString =
      some (s.reported ⟨.fault .unterminatedString, '"'.toUInt8 :: rest⟩) := by
  have hafter : (s.beyond ('"'.toUInt8 :: rest)).unread = [] := by
    rw [unread_beyond, hs, List.drop_length]
  rw [parseString, advanceString_past hs hrest, Option.bind_eq_bind, Option.bind_some, atEnd_eq,
    hafter]
  rfl

/-- The value of a string stands between its quotes. -/
theorem text_string {body more : List UInt8}
    (hs : s.unread = '"'.toUInt8 :: (body ++ '"'.toUInt8 :: more))
    (hin : s.position ≤ s.source.length) (hstart : s.start = s.position) :
    (s.beyond ('"'.toUInt8 :: (body ++ ['"'.toUInt8]))).text (s.start + 1)
      (s.position + ('"'.toUInt8 :: (body ++ ['"'.toUInt8])).length - 1) =
        some (Text.decodeString body) := by
  have hr : (s.past 1).unread = body ++ '"'.toUInt8 :: more := by simp [unread_past, hs]
  have hin1 : (s.past 1).position ≤ (s.past 1).source.length := by
    have hend := position_end hin
    rw [hs, List.length_cons] at hend
    simp only [past]
    omega
  have hslice : slice? s.source (s.position + 1) (s.position + 1 + body.length) = some body := by
    have hle : body.length ≤ (s.past 1).unread.length := by simp [hr]
    have h := slice?_unread hle hin1
    rwa [hr, List.take_left] at h
  have hstop : s.position + ('"'.toUInt8 :: (body ++ ['"'.toUInt8])).length - 1 =
      s.position + 1 + body.length := by
    simp only [List.length_cons, List.length_append, List.length_nil]
    omega
  rw [hstop, hstart, text]
  exact congrArg (Text.decodeString <$> ·) hslice

theorem parseString_closed {body more : List UInt8}
    (hs : s.unread = '"'.toUInt8 :: (body ++ '"'.toUInt8 :: more))
    (hin : s.position ≤ s.source.length) (hstart : s.start = s.position)
    (hbody : (body ++ '"'.toUInt8 :: more).takeWhile (· != '"'.toUInt8) = body) :
    (s.past 1).parseString =
      some (s.reported ⟨.token (.string (Text.decodeString body)),
        '"'.toUInt8 :: (body ++ ['"'.toUInt8])⟩) := by
  have hafter : (s.beyond ('"'.toUInt8 :: body)).unread = '"'.toUInt8 :: more := by
    rw [unread_beyond, hs, List.length_cons, List.drop_succ_cons, List.drop_left]
  have hlast : (s.beyond ('"'.toUInt8 :: body)).past 1 =
      s.beyond ('"'.toUInt8 :: (body ++ ['"'.toUInt8])) := by
    have hquote : lineEnds ['"'.toUInt8] = 0 := by decide
    rw [← List.cons_append, ← beyond_beyond, ← past_eq_beyond hquote, List.length_singleton]
  rw [parseString, advanceString_past hs hbody, Option.bind_eq_bind, Option.bind_some, atEnd_eq,
    hafter, List.isEmpty_cons, if_neg Bool.false_ne_true, advance_eq hafter, hlast]
  change (Scanner.text _ (s.start + 1) (s.position + _ - 1)).bind _ = _
  rw [text_string hs hin hstart]
  rfl

/-- A string is read from its first quote on. -/
theorem parseString_eq (hs : s.unread = '"'.toUInt8 :: rest) (hin : s.position ≤ s.source.length)
    (hstart : s.start = s.position) :
    (s.past 1).parseString = some (s.reported (leading '"'.toUInt8 rest)) := by
  obtain h | ⟨more, h⟩ := takeWhile_ne_cases '"'.toUInt8 rest
  · rw [leading_string h, if_neg (Nat.lt_irrefl _)]
    exact parseString_unclosed hs h
  · generalize hbody : rest.takeWhile (· != '"'.toUInt8) = body at h
    have htake : rest.take (body.length + 1) = body ++ ['"'.toUInt8] := by
      rw [h, List.take_length_add_append]
      rfl
    rw [leading_string hbody, if_pos (by simp [h]), htake]
    subst h
    exact parseString_closed hs hin hstart hbody

/-- A word is read from its first byte on. -/
theorem parseWord_eq (hs : s.unread = first :: rest) (hin : s.position ≤ s.source.length)
    (hstart : s.start = s.position) (hfirst : isWord first = true) {more : List UInt8}
    (hmore : rest.takeWhile isWord = more) :
    (s.past 1).parseWord =
      some ((s.beyond (first :: more)).found
        (.symbol (.ofWord (Text.decodeString (first :: more))))) := by
  have hr : (s.past 1).unread = rest := by simp [unread_past, hs]
  have hline : lineEnds (first :: more) = 0 := by
    have := lineEnds_takeWhile (p := isWord) (by decide) (first :: rest)
    rwa [List.takeWhile_cons_of_pos hfirst, hmore] at this
  have hspan : first :: more <+: s.unread := by
    rw [hs, ← hmore, List.cons_prefix_cons]
    exact ⟨rfl, List.takeWhile_prefix _⟩
  rw [parseWord, advanceWhile_eq (by decide), hr, hmore, past_past_eq_beyond hline,
    Option.bind_eq_bind, Option.bind_some, text_beyond hspan hin hstart]
  rfl

/-- A numeral whose first digit is read: more digits, and then the places. -/
theorem parseNumber_eq (hs : s.unread = first :: rest) (hin : s.position ≤ s.source.length)
    (hstart : s.start = s.position) (hfirst : Number.isDigit first = true)
    {whole places : List UInt8} (hwhole : rest.takeWhile Number.isDigit = whole)
    (hplaces : Piece.places (rest.drop whole.length) = places) :
    (s.past 1).parseNumber =
      some ((s.beyond (first :: (whole ++ places))).found
        (.number (Number.ofNumeral (first :: whole) places.tail))) := by
  have hr : (s.past 1).unread = rest := by simp [unread_past, hs]
  have hdigits : lineEnds (first :: whole) = 0 := by
    have := lineEnds_takeWhile (p := Number.isDigit) (by decide) (first :: rest)
    rwa [List.takeWhile_cons_of_pos hfirst, hwhole] at this
  have hline : lineEnds (first :: (whole ++ places)) = 0 := by
    rw [← List.cons_append, lineEnds_append, hdigits, ← hplaces, lineEnds_places]
  have hspan : first :: (whole ++ places) <+: s.unread := by
    rw [hs, List.cons_prefix_cons, ← hplaces]
    exact ⟨rfl, numeral_initial hwhole⟩
  have htake : (first :: (whole ++ places)).takeWhile Number.isDigit = first :: whole := by
    have : ∀ b ∈ first :: whole, Number.isDigit b = true := by
      rw [← hwhole]
      intro b hb
      rcases List.mem_cons.mp hb with rfl | hb
      · exact hfirst
      · exact List.mem_takeWhile_imp hb
    rw [← List.cons_append, List.takeWhile_append_of_pos this, ← hplaces, takeWhile_places,
      List.append_nil]
  have hdrop : (first :: (whole ++ places)).drop ((first :: whole).length + 1) = places.tail := by
    rw [← List.cons_append, List.drop_append]
    simp
  have hlast : ((s.past 1).past whole.length).past places.length =
      s.beyond (first :: (whole ++ places)) := by
    rw [past_past _ _, ← List.length_append, past_past_eq_beyond hline]
  rw [parseNumber, advanceWhile_eq (by decide), hr, hwhole, Option.bind_eq_bind, Option.bind_some,
    advancePlaces_eq, unread_past, hr, hplaces, Option.bind_some, hlast,
    slice?_beyond hspan hin hstart, Option.bind_eq_bind, Option.bind_some]
  simp only [htake, hdrop]
  rfl

theorem matched (hs : s.unread = first :: rest) (expected : UInt8) :
    (s.past 1).matchByte expected =
      some (if rest.head? == some expected then (true, s.past 2) else (false, s.past 1)) := by
  have hr : (s.past 1).unread = rest := by simp [unread_past, hs]
  rw [matchByte_eq, hr, past_past]

/-- An operator is found once its bytes are passed. -/
theorem found_past {count : Nat} (hcount : count ≤ rest.length)
    (hline : lineEnds (first :: rest.take count) = 0) (symbol : Symbol) :
    (s.past (count + 1)).found (.symbol symbol) =
      s.reported (operatorPiece first rest (symbol, count)) := by
  have hlength : (first :: rest.take count).length = count + 1 := by simp [hcount]
  rw [← hlength, past_eq_beyond hline]
  rfl

theorem found_single (hn : first ≠ newline) (rest : List UInt8) (symbol : Symbol) :
    (s.past 1).found (.symbol symbol) = s.reported (operatorPiece first rest (symbol, 0)) :=
  found_past (Nat.zero_le _) (by simp [lineEnds, hn]) symbol

theorem found_double {second : UInt8} (hn : first ≠ newline) (hm : second ≠ newline)
    (hr : rest.head? = some second) (symbol : Symbol) :
    (s.past 2).found (.symbol symbol) = s.reported (operatorPiece first rest (symbol, 1)) := by
  obtain ⟨more, rfl⟩ := List.head?_eq_some_iff.mp hr
  exact found_past (by simp) (by simp [lineEnds, hn, hm]) symbol

theorem either_eq (hs : s.unread = first :: rest) (hn : first ≠ newline) {second : UInt8}
    (hm : second ≠ newline) (double single : Symbol) :
    (s.past 1).either second double single =
      some (s.reported (operatorPiece first rest
        (if rest.head? == some second then (double, 1) else (single, 0)))) := by
  rw [either, matched hs]
  by_cases h : rest.head? = some second
  · simp [h, found_double hn hm h]
  · simp [h, found_single hn rest]

/-- A byte that begins no token is reported, with the bytes after it that continue a character. -/
theorem unexpected_eq (hs : s.unread = first :: rest) (hin : s.position ≤ s.source.length)
    (hstart : s.start = s.position) (hn : first ≠ newline) {more : List UInt8}
    (hmore : rest.takeWhile Text.continuation.holds = more) :
    (do let s ← (s.past 1).advanceWhile Text.continuation.holds
        let character ← s.text s.start s.position
        return s.fault (.unexpected character) : Option Scanned) =
      some (s.reported
        ⟨.fault (.unexpected (Text.decodeString (first :: more))), first :: more⟩) := by
  have hr : (s.past 1).unread = rest := by simp [unread_past, hs]
  have hline : lineEnds (first :: more) = 0 := by
    have := lineEnds_takeWhile (p := Text.continuation.holds) (by decide) rest
    rw [hmore] at this
    rw [← List.singleton_append, lineEnds_append, this]
    simp [lineEnds, hn]
  have hspan : first :: more <+: s.unread := by
    rw [hs, ← hmore, List.cons_prefix_cons]
    exact ⟨rfl, List.takeWhile_prefix _⟩
  rw [advanceWhile_eq (by decide), hr, hmore, past_past_eq_beyond hline, Option.bind_eq_bind,
    Option.bind_some, text_beyond hspan hin hstart]
  rfl

/-- An operator, or bytes that begin nothing. -/
theorem parseOperator_eq (hs : s.unread = first :: rest) (hin : s.position ≤ s.source.length)
    (hstart : s.start = s.position) (hn : first ≠ newline) :
    (s.past 1).parseOperator first =
      some (s.reported (operatorOrFault first rest)) := by
  unfold parseOperator operatorOrFault
  by_cases hbang : first = '!'.toUInt8
  · subst hbang
    rw [operator?_bang, if_pos (by decide), matched hs]
    by_cases h : rest.head? = some '!'.toUInt8
    · simp [h, found_double hn (by decide) h]
    · have := either_eq hs hn (show '='.toUInt8 ≠ newline by decide) .bangEqual .bang
      simpa [h] using this
  rw [if_neg (by simpa using hbang)]
  by_cases hequal : first = '='.toUInt8
  · subst hequal
    rw [if_pos (by decide), either_eq hs hn (by decide), operator?_either rfl rfl]
  rw [if_neg (by simpa using hequal)]
  by_cases hless : first = '<'.toUInt8
  · subst hless
    rw [if_pos (by decide), either_eq hs hn (by decide), operator?_either rfl rfl]
  rw [if_neg (by simpa using hless)]
  by_cases hgreater : first = '>'.toUInt8
  · subst hgreater
    rw [if_pos (by decide), either_eq hs hn (by decide), operator?_either rfl rfl]
  rw [if_neg (by simpa using hgreater)]
  by_cases hquestion : first = '?'.toUInt8
  · subst hquestion
    rw [if_pos (by decide), operator?_question, matched hs]
    by_cases h : rest.head? = some '?'.toUInt8
    · simp [h, found_double hn (by decide) h]
    · have hfault : (s.past 1).fault (.unexpected "?") =
          s.reported ⟨.fault (.unexpected (Text.decodeString ['?'.toUInt8])), ['?'.toUInt8]⟩ := by
        have hline : lineEnds ['?'.toUInt8] = 0 := by decide
        have htext : Text.decodeString ['?'.toUInt8] = "?" := by decide +kernel
        rw [htext, show (1 : Nat) = ['?'.toUInt8].length from rfl, past_eq_beyond hline]
        rfl
      simp [h, hfault]
  rw [if_neg (by simpa using hquestion)]
  have hpairs : Symbol.pairs.filter (fun entry => entry.1.1.toUInt8 == first) = [] := by
    simp [Symbol.pairs, Ne.symm hbang, Ne.symm hequal, Ne.symm hless, Ne.symm hgreater,
      Ne.symm hquestion]
  rw [operator?_single hpairs rfl]
  cases Symbol.singles.find? fun entry => entry.1.toUInt8 == first with
  | some entry => exact congrArg some (found_single hn rest entry.2)
  | none =>
    rw [Option.map_none, if_neg (by simpa using hquestion)]
    exact unexpected_eq hs hin hstart hn rfl

theorem reads_lineComment (lawful : searches.Lawful) {more : List UInt8}
    (hs : s.unread = '/'.toUInt8 :: '/'.toUInt8 :: more) (hin : s.position + 2 ≤ s.source.length) :
    (s.past 2).skipLine searches =
      some (s.reported ⟨.comment,
        '/'.toUInt8 :: '/'.toUInt8 :: more.takeWhile (· != newline)⟩) := by
  have hr : (s.past 2).unread = more := by simp [unread_past, hs]
  have hmarks : lineEnds ['/'.toUInt8, '/'.toUInt8] = 0 := by decide
  rw [skipLine_eq lawful hin, hr]
  exact congrArg (fun after => some (none, after)) (past_beyond hmarks _)

theorem reads_blockComment (lawful : searches.Lawful) {more : List UInt8}
    (hs : s.unread = '/'.toUInt8 :: '*'.toUInt8 :: more) (hin : s.position + 2 ≤ s.source.length) :
    (s.past 2).skipBlock searches =
      some (s.reported (blockComment more)) := by
  have hr : (s.past 2).unread = more := by simp [unread_past, hs]
  have hmarks : lineEnds ['/'.toUInt8, '*'.toUInt8] = 0 := by decide
  rw [skipBlock_eq lawful hin, hr, blockComment]
  cases closer? more with
  | some count => exact congrArg (fun after => some (none, after)) (past_beyond hmarks _)
  | none =>
    exact congrArg (fun after => some (some (LexFault.unterminatedComment, s.line), after))
      (past_beyond hmarks more)

/-- A slash begins a comment, or is an operator. -/
theorem parseSlash_eq (lawful : searches.Lawful) (hs : s.unread = '/'.toUInt8 :: rest)
    (hin : s.position ≤ s.source.length) :
    (s.past 1).parseSlash searches = some (s.reported (leading '/'.toUInt8 rest)) := by
  have hmarks : '*'.toUInt8 ≠ '/'.toUInt8 := by decide
  have hin2 : rest ≠ [] → s.position + 2 ≤ s.source.length := by
    intro hne
    have hend := position_end hin
    have := List.length_pos_iff.mpr hne
    rw [hs, List.length_cons] at hend
    omega
  simp only [parseSlash, Option.bind_eq_bind, Option.bind_some, matched hs]
  by_cases hline : rest.head? = some '/'.toUInt8
  · obtain ⟨more, rfl⟩ := List.head?_eq_some_iff.mp hline
    simp [leading_lineComment, reads_lineComment lawful hs (hin2 (by simp))]
  by_cases hblock : rest.head? = some '*'.toUInt8
  · obtain ⟨more, rfl⟩ := List.head?_eq_some_iff.mp hblock
    simp [leading_blockComment, hmarks, matched hs, reads_blockComment lawful hs (hin2 (by simp))]
  · have hoperator : operator? '/'.toUInt8 rest = some (.slash, 0) :=
      operator?_single rfl rfl rest
    rw [leading_operator (by decide) (fun _ => ⟨hline, hblock⟩) (by decide) (by decide) (by decide),
      operatorOrFault, hoperator]
    simp only [beq_iff_eq, hline, if_false, matched hs, hblock]
    exact congrArg some (found_single (by decide) rest .slash)

end ClassScript.Scanner
