import ClassScript.Proofs.Lexical.Searches

/-! Facts about the pieces of a source, apart from any scanner: which of them hold a line end, what
stands in a numeral, which operator some bytes begin with, and, for each sort of piece, when bytes
begin with one and what is so of it; and where the pieces say nothing but tokens. -/
namespace ClassScript.Piece

open Scanner (closer)

variable {first : UInt8} {rest : List UInt8}

@[simp] theorem lineEnds_append (a b : List UInt8) :
    lineEnds (a ++ b) = lineEnds a + lineEnds b := by
  simp [lineEnds]

/-- Bytes with a property that line ends lack hold no line end. -/
theorem lineEnds_takeWhile {p : UInt8 → Bool} (hp : p newline = false) (bytes : List UInt8) :
    lineEnds (bytes.takeWhile p) = 0 := by
  apply List.count_eq_zero.mpr
  intro h
  have := List.mem_takeWhile_imp h
  simp [hp] at this

/-- The places of a numeral are a point and the digits after it, or nothing. -/
theorem places_cases (bytes : List UInt8) :
    places bytes = [] ∨
      ∃ more, bytes = '.'.toUInt8 :: more ∧
        places bytes = '.'.toUInt8 :: more.takeWhile Number.isDigit := by
  unfold places
  split
  · next b more =>
    split
    · next h =>
      obtain ⟨hb, -⟩ : b = '.'.toUInt8 ∧ _ := by simpa using h
      exact .inr ⟨more, by rw [hb], by rw [hb]⟩
    · exact .inl rfl
  · exact .inl rfl

theorem places_initial (bytes : List UInt8) : places bytes <+: bytes := by
  obtain h | ⟨more, hb, h⟩ := places_cases bytes
  · rw [h]
    exact List.nil_prefix
  · rw [h, hb, List.cons_prefix_cons]
    exact ⟨rfl, List.takeWhile_prefix _⟩

/-- The digits and the places of a numeral, after its first digit. -/
theorem numeral_initial {whole : List UInt8} (hwhole : rest.takeWhile Number.isDigit = whole) :
    whole ++ places (rest.drop whole.length) <+: rest := by
  have htake := List.prefix_iff_eq_take.mp (List.takeWhile_prefix Number.isDigit (l := rest))
  rw [hwhole] at htake
  have hrest : whole ++ rest.drop whole.length = rest := by
    calc whole ++ rest.drop whole.length
        = rest.take whole.length ++ rest.drop whole.length := by rw [← htake]
      _ = rest := List.take_append_drop ..
  calc whole ++ places (rest.drop whole.length)
      <+: whole ++ rest.drop whole.length :=
        (List.prefix_append_right_inj whole).mpr (places_initial _)
    _ = rest := hrest

theorem takeWhile_places (bytes : List UInt8) : (places bytes).takeWhile Number.isDigit = [] := by
  obtain h | ⟨more, -, h⟩ := places_cases bytes
  · rw [h]
    rfl
  · rw [h, List.takeWhile_cons_of_neg (by decide)]

theorem lineEnds_places (bytes : List UInt8) : lineEnds (places bytes) = 0 := by
  obtain h | ⟨more, -, h⟩ := places_cases bytes
  · rw [h]
    rfl
  · have hd := lineEnds_takeWhile (p := Number.isDigit) (by decide) more
    rw [h, ← List.singleton_append, lineEnds_append, hd]
    decide

/-- An operator is a pair with its first byte if the byte after it is the other of the pair, and
else the single one. -/
theorem operator?_eq {pairs : List ((Char × Char) × Symbol)} {single? : Option (Char × Symbol)}
    (hpairs : Symbol.pairs.filter (fun entry => entry.1.1.toUInt8 == first) = pairs)
    (hsingle : Symbol.singles.find? (fun entry => entry.1.toUInt8 == first) = single?)
    (rest : List UInt8) :
    operator? first rest =
      (pairs.find? fun entry => rest.head? == some entry.1.2.toUInt8).elim
        (single?.map fun entry => (entry.2, 0)) fun entry => some (entry.2, 1) := by
  subst hpairs hsingle
  simp only [operator?, List.find?_filter, Bool.decide_and, Bool.decide_eq_true]
  split <;> simp [*]

theorem operator?_bang (rest : List UInt8) :
    operator? '!'.toUInt8 rest =
      some (if rest.head? == some '!'.toUInt8 then (.doubleBang, 1)
        else if rest.head? == some '='.toUInt8 then (.bangEqual, 1) else (.bang, 0)) := by
  have hpairs : Symbol.pairs.filter (fun entry => entry.1.1.toUInt8 == '!'.toUInt8) =
      [(('!', '!'), .doubleBang), (('!', '='), .bangEqual)] := by decide
  have hsingle : Symbol.singles.find? (fun entry => entry.1.toUInt8 == '!'.toUInt8) =
      some ('!', .bang) := by decide
  rw [operator?_eq hpairs hsingle, List.find?_cons, List.find?_cons]
  cases rest.head? == some '!'.toUInt8 <;> cases rest.head? == some '='.toUInt8 <;> rfl

/-- An operator that a byte makes alone, and another one that it makes with a second byte. -/
theorem operator?_either {second mark : Char} {double single : Symbol}
    (hpairs : Symbol.pairs.filter (fun entry => entry.1.1.toUInt8 == first) =
      [((mark, second), double)])
    (hsingle : Symbol.singles.find? (fun entry => entry.1.toUInt8 == first) = some (mark, single))
    (rest : List UInt8) :
    operator? first rest =
      some (if rest.head? == some second.toUInt8 then (double, 1) else (single, 0)) := by
  rw [operator?_eq hpairs hsingle, List.find?_cons]
  cases rest.head? == some second.toUInt8 <;> rfl

theorem operator?_question (rest : List UInt8) :
    operator? '?'.toUInt8 rest =
      if rest.head? == some '?'.toUInt8 then some (.coalesce, 1) else none := by
  have hpairs : Symbol.pairs.filter (fun entry => entry.1.1.toUInt8 == '?'.toUInt8) =
      [(('?', '?'), .coalesce)] := by decide
  have hsingle : Symbol.singles.find? (fun entry => entry.1.toUInt8 == '?'.toUInt8) = none := by
    decide
  rw [operator?_eq hpairs hsingle, List.find?_cons]
  cases rest.head? == some '?'.toUInt8 <;> rfl

theorem operator?_single {single? : Option (Char × Symbol)}
    (hpairs : Symbol.pairs.filter (fun entry => entry.1.1.toUInt8 == first) = [])
    (hsingle : Symbol.singles.find? (fun entry => entry.1.toUInt8 == first) = single?)
    (rest : List UInt8) :
    operator? first rest = single?.map fun entry => (entry.2, 0) :=
  operator?_eq hpairs hsingle rest

/-- An operator is a symbol of the tables. -/
theorem operator?_ne {symbol : Symbol} {length : Nat} (other : Symbol)
    (hpairs : ∀ entry ∈ Symbol.pairs, entry.2 ≠ other)
    (hsingles : ∀ entry ∈ Symbol.singles, entry.2 ≠ other)
    (h : operator? first rest = some (symbol, length)) : symbol ≠ other := by
  simp only [operator?] at h
  split at h
  case h_1 entry found =>
    cases h
    exact hpairs entry (List.mem_of_find?_eq_some found)
  case h_2 =>
    obtain ⟨entry, found, he⟩ := Option.map_eq_some_iff.mp h
    cases he
    exact hsingles entry (List.mem_of_find?_eq_some found)

/-- A word is a keyword or a name. -/
theorem ofWord_ne (other : Symbol) (hkeywords : ∀ entry ∈ Symbol.keywords, entry.2 ≠ other)
    (hname : Symbol.identifier ≠ other) (word : String) : Symbol.ofWord word ≠ other := by
  rw [Symbol.ofWord]
  cases h : Symbol.keywords.lookup word with
  | none => exact hname
  | some symbol =>
    obtain ⟨front, more, hk, -⟩ := List.lookup_eq_some_iff.mp h
    exact hkeywords (word, symbol) (by simp [hk])

/-- The piece of an operator: its first byte, and the bytes after it that belong to it. -/
def operatorPiece (first : UInt8) (rest : List UInt8) (operator : Symbol × Nat) : Piece :=
  ⟨.token (.symbol operator.1), first :: rest.take operator.2⟩

/-- The piece that bytes begin with. -/
def leading (first : UInt8) (rest : List UInt8) : Piece :=
  ⟨(head first rest).1, first :: rest.take (head first rest).2⟩

theorem leading_initial (first : UInt8) (rest : List UInt8) :
    (leading first rest).span <+: first :: rest := by
  rw [leading, List.cons_prefix_cons]
  exact ⟨rfl, List.take_prefix ..⟩

theorem cut_leading (first : UInt8) (rest : List UInt8) :
    cut (first :: rest) =
      leading first rest :: cut ((first :: rest).drop (leading first rest).span.length) := by
  rw [cut_cons, leading, List.length_cons, List.drop_succ_cons, List.length_take]
  rcases Nat.le_total (head first rest).2 rest.length with h | h
  · rw [Nat.min_eq_left h]
  · rw [Nat.min_eq_right h, List.drop_length, List.drop_of_length_le h]

/-! The piece that bytes begin with, for each sort of piece. -/

theorem leading_blank (hblank : isBlank first = true) (rest : List UInt8) :
    leading first rest = ⟨.blank, [first]⟩ := by
  have hhead : head first rest = (.blank, 0) := by rw [head, if_pos hblank]
  rw [leading, hhead, List.take_zero]

theorem leading_lineComment (more : List UInt8) :
    leading '/'.toUInt8 ('/'.toUInt8 :: more) =
      ⟨.comment, '/'.toUInt8 :: '/'.toUInt8 :: more.takeWhile (· != newline)⟩ := by
  have hblank : isBlank '/'.toUInt8 = false := by decide
  have hspan : ('/'.toUInt8 :: more).takeWhile (· != newline) =
      '/'.toUInt8 :: more.takeWhile (· != newline) := List.takeWhile_cons_of_pos (by decide)
  have hhead : head '/'.toUInt8 ('/'.toUInt8 :: more) =
      (.comment, ('/'.toUInt8 :: more.takeWhile (· != newline)).length) := by
    simp [head, hblank, hspan]
  rw [leading, hhead, List.length_cons, List.take_succ_cons,
    ← List.prefix_iff_eq_take.mp (List.takeWhile_prefix _)]

/-- A comment with an opener of its own, given the bytes after the opener. -/
def blockComment (more : List UInt8) : Piece :=
  match closer? more with
  | some count => ⟨.comment, '/'.toUInt8 :: '*'.toUInt8 :: more.take count⟩
  | none => ⟨.fault .unterminatedComment, '/'.toUInt8 :: '*'.toUInt8 :: more⟩

theorem leading_blockComment (more : List UInt8) :
    leading '/'.toUInt8 ('*'.toUInt8 :: more) = blockComment more := by
  have hblank : isBlank '/'.toUInt8 = false := by decide
  have hmarks : '*'.toUInt8 ≠ '/'.toUInt8 := by decide
  cases hc : closer? more <;> simp [leading, head, blockComment, hblank, hmarks, hc]

theorem leading_string {body : List UInt8} (hbody : rest.takeWhile (· != '"'.toUInt8) = body) :
    leading '"'.toUInt8 rest =
      if body.length < rest.length then
        ⟨.token (.string (Text.decodeString body)), '"'.toUInt8 :: rest.take (body.length + 1)⟩
      else ⟨.fault .unterminatedString, '"'.toUInt8 :: rest⟩ := by
  have hblank : isBlank '"'.toUInt8 = false := by decide
  have hslash : '"'.toUInt8 ≠ '/'.toUInt8 := by decide
  by_cases hclosed : body.length < rest.length <;>
    simp [leading, head, hblank, hslash, hbody, hclosed]

theorem leading_number (hblank : isBlank first = false) (hslash : first ≠ '/'.toUInt8)
    (hquote : first ≠ '"'.toUInt8) (hdigit : Number.isDigit first = true) {whole : List UInt8}
    (hwhole : rest.takeWhile Number.isDigit = whole) :
    leading first rest =
      ⟨.token (.number (Number.ofNumeral (first :: whole) (places (rest.drop whole.length)).tail)),
        first :: (whole ++ places (rest.drop whole.length))⟩ := by
  have hspan := List.prefix_iff_eq_take.mp (numeral_initial hwhole)
  rw [List.length_append] at hspan
  simp [leading, head, hblank, hslash, hquote, hdigit, hwhole, ← hspan]

theorem leading_word (hblank : isBlank first = false) (hslash : first ≠ '/'.toUInt8)
    (hquote : first ≠ '"'.toUInt8) (hdigit : Number.isDigit first = false)
    (hword : isWordStart first = true) {more : List UInt8} (hmore : rest.takeWhile isWord = more) :
    leading first rest =
      ⟨.token (.symbol (.ofWord (Text.decodeString (first :: more)))), first :: more⟩ := by
  have hspan : more = rest.take more.length := by
    rw [← hmore]
    exact List.prefix_iff_eq_take.mp (List.takeWhile_prefix isWord)
  simp [leading, head, hblank, hslash, hquote, hdigit, hword, hmore, ← hspan]

/-- What bytes begin with that begin no blank, no comment, no literal and no word. -/
def operatorOrFault (first : UInt8) (rest : List UInt8) : Piece :=
  match operator? first rest with
  | some operator => operatorPiece first rest operator
  | none =>
    let more := if first == '?'.toUInt8 then [] else rest.takeWhile Text.continuation.holds
    ⟨.fault (.unexpected (Text.decodeString (first :: more))), first :: more⟩

theorem leading_operator (hblank : isBlank first = false)
    (hcomment : first = '/'.toUInt8 → rest.head? ≠ some '/'.toUInt8 ∧ rest.head? ≠ some '*'.toUInt8)
    (hquote : first ≠ '"'.toUInt8) (hdigit : Number.isDigit first = false)
    (hword : isWordStart first = false) :
    leading first rest = operatorOrFault first rest := by
  have hline : ¬ (first == '/'.toUInt8 && rest.head? == some '/'.toUInt8) = true := by
    simp only [Bool.and_eq_true, beq_iff_eq]
    exact fun h => (hcomment h.1).1 h.2
  have hblock : ¬ (first == '/'.toUInt8 && rest.head? == some '*'.toUInt8) = true := by
    simp only [Bool.and_eq_true, beq_iff_eq]
    exact fun h => (hcomment h.1).2 h.2
  have hcontinued := List.prefix_iff_eq_take.mp
    (List.takeWhile_prefix Text.continuation.holds (l := rest))
  unfold leading head operatorOrFault
  rw [if_neg (by simp [hblank]), if_neg hline, if_neg hblock, if_neg (by simpa using hquote),
    if_neg (by simp [hdigit]), if_neg (by simp [hword])]
  cases operator? first rest with
  | some operator => rfl
  | none =>
    by_cases hquestion : first = '?'.toUInt8
    · simp [hquestion]
    · simp [hquestion, ← hcontinued]

/-- Bytes that say nothing: a blank, a comment up to the end of its line, or a comment up to the
first closer. -/
inductive Skipped : List UInt8 → Prop
  | blank {b : UInt8} (h : isBlank b = true) : Skipped [b]
  | line {body : List UInt8} (h : newline ∉ body) : Skipped ('/'.toUInt8 :: '/'.toUInt8 :: body)
  | block {body : List UInt8} (h : ∀ i < body.length, ¬ closer <+: (body ++ closer).drop i) :
      Skipped ('/'.toUInt8 :: '*'.toUInt8 :: (body ++ closer))

/-- What is so of a piece of each sort. -/
def Sound (piece : Piece) : Prop :=
  match piece.part with
  | .blank | .comment => Skipped piece.span
  | .token kind => kind ≠ .symbol .endOfSource
  | .fault .unterminatedComment => ['/'.toUInt8, '*'.toUInt8] <+: piece.span
  | .fault _ => True

end ClassScript.Piece

namespace ClassScript

namespace Item

theorem eq_map_token {items : List Item} (h : items.filterMap fault? = []) :
    items = (items.filterMap token?).map .token := by
  induction items with
  | nil => rfl
  | cons item items ih =>
    cases item with
    | token t => exact congrArg (Item.token t :: ·) (ih h)
    | fault cause line => cases h

theorem filterMap_map_token (ts : List Token) :
    (ts.map token).filterMap fault? = [] ∧ (ts.map token).filterMap token? = ts := by
  induction ts with
  | nil => exact ⟨rfl, rfl⟩
  | cons t ts ih =>
    exact ⟨ih.1, congrArg (t :: ·) ih.2⟩

end Item

/-- Scanning succeeds where a source says nothing but tokens. -/
theorem tokens_eq_ok_iff {source : List UInt8} {ts : List Token} :
    tokens source = .ok ts ↔ Item.ofSource source = ts.map .token := by
  constructor
  · intro h
    simp only [tokens] at h
    split at h
    case h_2 => cases h
    case h_1 hfaults =>
      cases h
      exact Item.eq_map_token hfaults
  · intro h
    obtain ⟨hfaults, htokens⟩ := Item.filterMap_map_token ts
    simp only [tokens, h, hfaults, htokens]

end ClassScript
