import ClassScript.Proofs.Lexical.Pieces

/-! The pieces of a source, one rule for each sort. A rule says which bytes make a piece of its sort
and what may stand behind them; a source is cut into a piece and others just where a rule says
so. -/
namespace ClassScript.Piece

open Scanner (closer)

/-- The bytes do not go on with one of a class. -/
def Stops (p : UInt8 → Bool) (rest : List UInt8) : Prop := ∀ b, rest.head? = some b → p b = false

/-- The byte begins no blank, no literal and no word. -/
structure Bare (first : UInt8) : Prop where
  blank : isBlank first = false
  quote : first ≠ '"'.toUInt8
  digit : Number.isDigit first = false
  word : isWordStart first = false

/-- The byte begins nothing, neither any of these nor an operator nor a comment. -/
structure Strange (first : UInt8) : Prop extends Bare first where
  question : first ≠ '?'.toUInt8
  mark : ∀ entry ∈ Symbol.singles, entry.1.toUInt8 ≠ first

/-- The piece is cut off where the rest stands behind its bytes. -/
inductive CutBefore : Piece → List UInt8 → Prop
  | blank {b : UInt8} (h : isBlank b = true) (rest : List UInt8) : CutBefore ⟨.blank, [b]⟩ rest
  | lineComment {body rest : List UInt8} (inside : newline ∉ body)
      (ends : Stops (· != newline) rest) :
      CutBefore ⟨.comment, '/'.toUInt8 :: '/'.toUInt8 :: body⟩ rest
  | blockComment {body : List UInt8}
      (inside : ∀ i < body.length, ¬ closer <+: (body ++ closer).drop i) (rest : List UInt8) :
      CutBefore ⟨.comment, '/'.toUInt8 :: '*'.toUInt8 :: (body ++ closer)⟩ rest
  | openComment {body : List UInt8} (inside : ∀ i, ¬ closer <+: body.drop i) :
      CutBefore ⟨.fault .unterminatedComment, '/'.toUInt8 :: '*'.toUInt8 :: body⟩ []
  | string {body : List UInt8} (inside : '"'.toUInt8 ∉ body) (rest : List UInt8) :
      CutBefore ⟨.token (.string (Text.decodeString body)), '"'.toUInt8 :: (body ++ ['"'.toUInt8])⟩
        rest
  | openString {body : List UInt8} (inside : '"'.toUInt8 ∉ body) :
      CutBefore ⟨.fault .unterminatedString, '"'.toUInt8 :: body⟩ []
  | whole {first : UInt8} {more rest : List UInt8}
      (digits : ∀ b ∈ first :: more, Number.isDigit b = true) (ends : Stops Number.isDigit rest)
      (pointless : places rest = []) :
      CutBefore ⟨.token (.number (Number.ofNumeral (first :: more) [])), first :: more⟩ rest
  | decimal {first place : UInt8} {more places rest : List UInt8}
      (digits : ∀ b ∈ first :: more, Number.isDigit b = true)
      (digits' : ∀ b ∈ place :: places, Number.isDigit b = true)
      (ends : Stops Number.isDigit rest) :
      CutBefore ⟨.token (.number (Number.ofNumeral (first :: more) (place :: places))),
        first :: (more ++ '.'.toUInt8 :: place :: places)⟩ rest
  | word {first : UInt8} {more rest : List UInt8} (start : isWordStart first = true)
      (inside : ∀ b ∈ more, isWord b = true) (ends : Stops isWord rest) :
      CutBefore ⟨.token (.symbol (.ofWord (Text.decodeString (first :: more)))), first :: more⟩ rest
  | pair {mark second : Char} {symbol : Symbol} (entry : ((mark, second), symbol) ∈ Symbol.pairs)
      (rest : List UInt8) :
      CutBefore ⟨.token (.symbol symbol), [mark.toUInt8, second.toUInt8]⟩ rest
  | single {mark : Char} {symbol : Symbol} {rest : List UInt8}
      (entry : (mark, symbol) ∈ Symbol.singles)
      (alone : ∀ other ∈ Symbol.pairs, other.1.1.toUInt8 = mark.toUInt8 →
        rest.head? ≠ some other.1.2.toUInt8)
      (noComment : mark.toUInt8 = '/'.toUInt8 →
        rest.head? ≠ some '/'.toUInt8 ∧ rest.head? ≠ some '*'.toUInt8) :
      CutBefore ⟨.token (.symbol symbol), [mark.toUInt8]⟩ rest
  | question {rest : List UInt8} (alone : rest.head? ≠ some '?'.toUInt8) :
      CutBefore ⟨.fault (.unexpected "?"), ['?'.toUInt8]⟩ rest
  | unexpected {first : UInt8} {more rest : List UInt8} (strange : Strange first)
      (inside : ∀ b ∈ more, Text.continuation.holds b = true)
      (ends : Stops Text.continuation.holds rest) :
      CutBefore ⟨.fault (.unexpected (Text.decodeString (first :: more))), first :: more⟩ rest

section Stops

variable {p : UInt8 → Bool} {body rest body' rest' : List UInt8}

theorem Stops.nil : Stops p [] := by
  intro b h
  cases h

theorem Stops.cons {b : UInt8} (h : p b = false) : Stops p (b :: rest) := by
  rintro _ ⟨⟩
  exact h

theorem stops_dropWhile (p : UInt8 → Bool) (bytes : List UInt8) : Stops p (bytes.dropWhile p) := by
  intro b h
  have := List.head?_dropWhile_not p bytes
  rw [h] at this
  simpa using this

/-- Where bytes of a class stand and the rest does not go on with one, they are taken. -/
theorem takeWhile_stops (inside : ∀ b ∈ body, p b = true) (ends : Stops p rest) :
    (body ++ rest).takeWhile p = body := by
  rw [List.takeWhile_append_of_pos inside]
  cases rest with
  | nil => simp
  | cons b more => simp [ends b rfl]

/-- Bytes of a class that others begin with are no more than those up to where the class stops. -/
theorem Stops.length_le (ends : Stops p rest) (h : body' ++ rest' = body ++ rest)
    (inside : ∀ b ∈ body', p b = true) : body'.length ≤ body.length := by
  rcases List.append_eq_append_iff.mp h with ⟨x, rfl, -⟩ | ⟨x, rfl, hrest⟩
  · simp
  · cases x with
    | nil => simp
    | cons b x =>
      have hb := inside b (by simp)
      rw [ends b (by simp [hrest])] at hb
      cases hb

theorem Stops.unique (ends : Stops p rest) (inside : ∀ b ∈ body, p b = true) (ends' : Stops p rest')
    (inside' : ∀ b ∈ body', p b = true) (h : body' ++ rest' = body ++ rest) :
    body' = body ∧ rest' = rest := by
  have hbody : body' = body := by
    rw [← takeWhile_stops inside' ends', h, takeWhile_stops inside ends]
  subst hbody
  exact ⟨rfl, List.append_cancel_left h⟩

end Stops

theorem not_closer {bytes : List UInt8} (h : closer? bytes = none) (i : Nat) :
    ¬ closer <+: bytes.drop i := by
  induction bytes generalizing i with
  | nil => simp [closer]
  | cons b rest ih =>
    rw [closer?] at h
    split at h
    · cases h
    · next hb =>
      cases i with
      | zero => rwa [List.drop_zero, closer_prefix_cons]
      | succ i => exact ih (Option.map_eq_none_iff.mp h) i

/-- The bytes begin with the piece, and the rule of its sort holds of what stands behind it. -/
def Cuts (bytes : List UInt8) (piece : Piece) : Prop :=
  ∃ rest, bytes = piece.span ++ rest ∧ CutBefore piece rest

theorem lineComment_cuts (more : List UInt8) :
    Cuts ('/'.toUInt8 :: '/'.toUInt8 :: more) (leading '/'.toUInt8 ('/'.toUInt8 :: more)) := by
  rw [leading_lineComment]
  refine ⟨more.dropWhile (· != newline), ?_, .lineComment ?_ (stops_dropWhile _ _)⟩
  · simp only [List.cons_append, List.takeWhile_append_dropWhile]
  · intro h
    have := List.mem_takeWhile_imp h
    simp at this

theorem blockComment_cuts (more : List UInt8) :
    Cuts ('/'.toUInt8 :: '*'.toUInt8 :: more) (leading '/'.toUInt8 ('*'.toUInt8 :: more)) := by
  rw [leading_blockComment]
  obtain h | ⟨body, after, rfl, h, hfirst⟩ := closer?_cases more
  · rw [blockComment, h]
    exact ⟨[], by simp, .openComment (not_closer h)⟩
  · have htake : (body ++ closer ++ after).take (body.length + 2) = body ++ closer :=
      List.take_left' (by simp [closer])
    simp only [blockComment, h, htake]
    exact ⟨after, by simp, .blockComment hfirst after⟩

theorem string_cuts (rest : List UInt8) :
    Cuts ('"'.toUInt8 :: rest) (leading '"'.toUInt8 rest) := by
  generalize hbody : rest.takeWhile (· != '"'.toUInt8) = body
  have hinside : '"'.toUInt8 ∉ body := by
    intro h
    rw [← hbody] at h
    have := List.mem_takeWhile_imp h
    simp at this
  rw [leading_string hbody]
  obtain h | ⟨more, h⟩ := takeWhile_ne_cases '"'.toUInt8 rest
  · obtain rfl : body = rest := hbody.symm.trans h
    rw [if_neg (Nat.lt_irrefl _)]
    exact ⟨[], by simp, .openString hinside⟩
  · rw [hbody] at h
    have htake : rest.take (body.length + 1) = body ++ ['"'.toUInt8] := by
      rw [h, List.take_length_add_append]
      rfl
    rw [if_pos (by simp [h]), htake]
    exact ⟨more, by simp [h], .string hinside more⟩

/-- The places of a numeral, where there are any: a point, a digit and more of them. -/
theorem places_split (bytes : List UInt8) :
    places bytes = [] ∨ ∃ place more rest, bytes = '.'.toUInt8 :: place :: (more ++ rest) ∧
      places bytes = '.'.toUInt8 :: place :: more ∧
      (∀ b ∈ place :: more, Number.isDigit b = true) ∧ Stops Number.isDigit rest := by
  unfold places
  split
  · next b after =>
    split
    · next h =>
      obtain ⟨hb, place, hplace, hdigit⟩ : b = '.'.toUInt8 ∧ ∃ place, after.head? = some place ∧
          Number.isDigit place = true := by simpa [Option.any_eq_true] using h
      obtain ⟨rest, rfl⟩ := List.head?_eq_some_iff.mp hplace
      refine .inr ⟨place, rest.takeWhile Number.isDigit, rest.dropWhile Number.isDigit, ?_, ?_, ?_,
        stops_dropWhile _ _⟩
      · rw [List.takeWhile_append_dropWhile, hb]
      · rw [List.takeWhile_cons_of_pos hdigit, hb]
      · exact List.forall_mem_cons.mpr ⟨hdigit, fun b hb => List.mem_takeWhile_imp hb⟩
    · exact .inl rfl
  · exact .inl rfl

theorem number_cuts {first : UInt8} (hblank : isBlank first = false) (hslash : first ≠ '/'.toUInt8)
    (hquote : first ≠ '"'.toUInt8) (hdigit : Number.isDigit first = true) (rest : List UInt8) :
    Cuts (first :: rest) (leading first rest) := by
  rw [leading_number hblank hslash hquote hdigit rfl]
  generalize hwhole : rest.takeWhile Number.isDigit = whole
  generalize hmore : rest.dropWhile Number.isDigit = more
  have hrest : rest = whole ++ more := by
    rw [← hwhole, ← hmore, List.takeWhile_append_dropWhile]
  have hdigits : ∀ b ∈ first :: whole, Number.isDigit b = true := by
    rw [← hwhole]
    exact List.forall_mem_cons.mpr ⟨hdigit, fun b hb => List.mem_takeWhile_imp hb⟩
  have hends : Stops Number.isDigit more := by
    rw [← hmore]
    exact stops_dropWhile _ _
  rw [hrest, List.drop_left]
  obtain h | ⟨place, places', after, rfl, h, hplaces, hafter⟩ := places_split more
  · rw [h, List.append_nil]
    exact ⟨more, rfl, .whole hdigits hends h⟩
  · rw [h]
    exact ⟨after, by simp, .decimal hdigits hplaces hafter⟩

theorem word_cuts {first : UInt8} (hblank : isBlank first = false) (hslash : first ≠ '/'.toUInt8)
    (hquote : first ≠ '"'.toUInt8) (hdigit : Number.isDigit first = false)
    (hword : isWordStart first = true) (rest : List UInt8) :
    Cuts (first :: rest) (leading first rest) := by
  rw [leading_word hblank hslash hquote hdigit hword rfl]
  refine ⟨rest.dropWhile isWord, ?_, .word hword (fun b hb => List.mem_takeWhile_imp hb)
    (stops_dropWhile _ _)⟩
  rw [List.cons_append, List.takeWhile_append_dropWhile]

/-- The operator that bytes begin with, where they begin with one, is a pair of the table or else a
single mark. -/
theorem operator?_cases (first : UInt8) (rest : List UInt8) :
    (∃ entry ∈ Symbol.pairs, entry.1.1.toUInt8 = first ∧ rest.head? = some entry.1.2.toUInt8 ∧
      operator? first rest = some (entry.2, 1)) ∨
    (∀ entry ∈ Symbol.pairs, entry.1.1.toUInt8 = first → rest.head? ≠ some entry.1.2.toUInt8) ∧
      ((∃ entry ∈ Symbol.singles, entry.1.toUInt8 = first ∧
        operator? first rest = some (entry.2, 0)) ∨
      (∀ entry ∈ Symbol.singles, entry.1.toUInt8 ≠ first) ∧ operator? first rest = none) := by
  unfold operator?
  cases hpair : Symbol.pairs.find? fun entry =>
      entry.1.1.toUInt8 == first && rest.head? == some entry.1.2.toUInt8 with
  | some entry =>
    have h := List.find?_some hpair
    simp only [Bool.and_eq_true, beq_iff_eq] at h
    exact .inl ⟨entry, List.mem_of_find?_eq_some hpair, h.1, h.2, rfl⟩
  | none =>
    have hpairs : ∀ entry ∈ Symbol.pairs, entry.1.1.toUInt8 = first →
        rest.head? ≠ some entry.1.2.toUInt8 := by
      intro entry hm hf hr
      have := List.find?_eq_none.mp hpair entry hm
      simp [hf, hr] at this
    refine .inr ⟨hpairs, ?_⟩
    cases hsingle : Symbol.singles.find? fun entry => entry.1.toUInt8 == first with
    | some entry =>
      have h := List.find?_some hsingle
      exact .inl ⟨entry, List.mem_of_find?_eq_some hsingle, by simpa using h, rfl⟩
    | none =>
      refine .inr ⟨fun entry hm => ?_, rfl⟩
      simpa using List.find?_eq_none.mp hsingle entry hm

theorem operator_cuts {first : UInt8} {rest : List UInt8} (hblank : isBlank first = false)
    (hcomment : first = '/'.toUInt8 → rest.head? ≠ some '/'.toUInt8 ∧ rest.head? ≠ some '*'.toUInt8)
    (hquote : first ≠ '"'.toUInt8) (hdigit : Number.isDigit first = false)
    (hword : isWordStart first = false) : Cuts (first :: rest) (leading first rest) := by
  rw [leading_operator hblank hcomment hquote hdigit hword, operatorOrFault]
  obtain ⟨⟨⟨mark, second⟩, symbol⟩, hm, rfl, hr, h⟩ |
      ⟨hpairs, ⟨⟨mark, symbol⟩, hm, rfl, h⟩ | ⟨hsingles, h⟩⟩ := operator?_cases first rest
  · obtain ⟨more, rfl⟩ := List.head?_eq_some_iff.mp hr
    rw [h]
    exact ⟨more, rfl, .pair hm more⟩
  · rw [h]
    exact ⟨rest, rfl, .single hm hpairs hcomment⟩
  · rw [h]
    by_cases hquestion : first = '?'.toUInt8
    · subst hquestion
      have htext : Text.decodeString ['?'.toUInt8] = "?" := by decide +kernel
      simp only [beq_self_eq_true, if_true, htext]
      exact ⟨rest, rfl, .question (hpairs (('?', '?'), .coalesce) (by decide) rfl)⟩
    · simp only [beq_iff_eq, hquestion, if_false]
      refine ⟨rest.dropWhile Text.continuation.holds, ?_, .unexpected
        ⟨⟨hblank, hquote, hdigit, hword⟩, hquestion, hsingles⟩
        (fun b hb => List.mem_takeWhile_imp hb) (stops_dropWhile _ _)⟩
      rw [List.cons_append, List.takeWhile_append_dropWhile]

/-- Bytes begin with a piece whose rule holds of what stands behind it. -/
theorem leading_cuts (first : UInt8) (rest : List UInt8) :
    Cuts (first :: rest) (leading first rest) := by
  by_cases hblank : isBlank first = true
  · rw [leading_blank hblank]
    exact ⟨rest, rfl, .blank hblank rest⟩
  rw [Bool.not_eq_true] at hblank
  by_cases hline : first = '/'.toUInt8 ∧ rest.head? = some '/'.toUInt8
  · obtain ⟨rfl, hr⟩ := hline
    obtain ⟨more, rfl⟩ := List.head?_eq_some_iff.mp hr
    exact lineComment_cuts more
  by_cases hblock : first = '/'.toUInt8 ∧ rest.head? = some '*'.toUInt8
  · obtain ⟨rfl, hr⟩ := hblock
    obtain ⟨more, rfl⟩ := List.head?_eq_some_iff.mp hr
    exact blockComment_cuts more
  by_cases hquote : first = '"'.toUInt8
  · subst hquote
    exact string_cuts rest
  -- a digit and a letter begin no comment
  have hslash : Number.isDigit first = true ∨ isWordStart first = true → first ≠ '/'.toUInt8 := by
    rintro h rfl
    exact absurd h (by decide)
  by_cases hdigit : Number.isDigit first = true
  · exact number_cuts hblank (hslash (.inl hdigit)) hquote hdigit rest
  by_cases hword : isWordStart first = true
  · exact word_cuts hblank (hslash (.inr hword)) hquote (by simpa using hdigit) hword rest
  · exact operator_cuts hblank (fun h => ⟨fun hr => hline ⟨h, hr⟩, fun hr => hblock ⟨h, hr⟩⟩) hquote
      (by simpa using hdigit) (by simpa using hword)

theorem CutBefore.sound {piece : Piece} {rest : List UInt8} (h : CutBefore piece rest) :
    piece.Sound := by
  cases h with
  | blank h => exact .blank h
  | lineComment inside => exact .line inside
  | blockComment inside => exact .block inside
  | openComment => exact ⟨_, rfl⟩
  | openString | question | unexpected => trivial
  | string | whole | decimal => exact TokenKind.noConfusion
  | @word first more =>
    have := ofWord_ne .endOfSource (by decide) (by decide) (Text.decodeString (first :: more))
    simpa [Sound] using this
  | pair entry =>
    have table : ∀ entry ∈ Symbol.pairs, entry.2 ≠ .endOfSource := by decide
    simpa [Sound] using table _ entry
  | single entry =>
    have table : ∀ entry ∈ Symbol.singles, entry.2 ≠ .endOfSource := by decide
    simpa [Sound] using table _ entry

theorem leading_sound (first : UInt8) (rest : List UInt8) : (leading first rest).Sound := by
  obtain ⟨more, -, h⟩ := leading_cuts first rest
  exact h.sound

theorem bare_single {entry : Char × Symbol} (h : entry ∈ Symbol.singles) :
    Bare entry.1.toUInt8 := by
  have table : ∀ entry ∈ Symbol.singles, isBlank entry.1.toUInt8 = false ∧
      entry.1.toUInt8 ≠ '"'.toUInt8 ∧ Number.isDigit entry.1.toUInt8 = false ∧
      isWordStart entry.1.toUInt8 = false := by decide
  obtain ⟨hblank, hquote, hdigit, hword⟩ := table entry h
  exact ⟨hblank, hquote, hdigit, hword⟩

theorem bare_pair {entry : (Char × Char) × Symbol} (h : entry ∈ Symbol.pairs) :
    Bare entry.1.1.toUInt8 := by
  have table : ∀ entry ∈ Symbol.pairs, isBlank entry.1.1.toUInt8 = false ∧
      entry.1.1.toUInt8 ≠ '"'.toUInt8 ∧ Number.isDigit entry.1.1.toUInt8 = false ∧
      isWordStart entry.1.1.toUInt8 = false := by decide
  obtain ⟨hblank, hquote, hdigit, hword⟩ := table entry h
  exact ⟨hblank, hquote, hdigit, hword⟩

/-- No pair of the table is in it twice. -/
theorem operator?_pair {entry : (Char × Char) × Symbol} (h : entry ∈ Symbol.pairs)
    (more : List UInt8) :
    operator? entry.1.1.toUInt8 (entry.1.2.toUInt8 :: more) = some (entry.2, 1) := by
  have table : ∀ entry ∈ Symbol.pairs, Symbol.pairs.find? (fun other =>
      other.1.1.toUInt8 == entry.1.1.toUInt8 &&
        some entry.1.2.toUInt8 == some other.1.2.toUInt8) = some entry := by decide
  simp only [operator?, List.head?_cons, table entry h]

/-- No single mark of the table is in it twice. -/
theorem operator?_alone {entry : Char × Symbol} {rest : List UInt8} (h : entry ∈ Symbol.singles)
    (alone : ∀ other ∈ Symbol.pairs, other.1.1.toUInt8 = entry.1.toUInt8 →
      rest.head? ≠ some other.1.2.toUInt8) :
    operator? entry.1.toUInt8 rest = some (entry.2, 0) := by
  have table : ∀ entry ∈ Symbol.singles, Symbol.singles.find? (fun other =>
      other.1.toUInt8 == entry.1.toUInt8) = some entry := by decide
  obtain ⟨other, hm, hf, hr, -⟩ | ⟨hpairs, -⟩ := operator?_cases entry.1.toUInt8 rest
  · exact absurd hr (alone other hm hf)
  · have hnone : Symbol.pairs.find? (fun other =>
        other.1.1.toUInt8 == entry.1.toUInt8 && rest.head? == some other.1.2.toUInt8) = none := by
      apply List.find?_eq_none.mpr
      intro other hm hother
      simp only [Bool.and_eq_true, beq_iff_eq] at hother
      exact hpairs other hm hother.1 hother.2
    simp only [operator?, hnone, table entry h, Option.map_some]

theorem operator?_strange {first : UInt8} (hquestion : first ≠ '?'.toUInt8)
    (hmark : ∀ entry ∈ Symbol.singles, entry.1.toUInt8 ≠ first) (rest : List UInt8) :
    operator? first rest = none := by
  have table : ∀ entry ∈ Symbol.pairs, entry.1.1.toUInt8 = '?'.toUInt8 ∨
      ∃ single ∈ Symbol.singles, single.1.toUInt8 = entry.1.1.toUInt8 := by decide
  obtain ⟨entry, hm, rfl, -, -⟩ | ⟨-, ⟨entry, hm, hf, -⟩ | ⟨-, h⟩⟩ := operator?_cases first rest
  · obtain h | ⟨single, hsingle, h⟩ := table entry hm
    · exact absurd h hquestion
    · exact absurd h (hmark single hsingle)
  · exact absurd hf (hmark entry hm)
  · exact h

theorem ne_of_notMem {b : UInt8} {body : List UInt8} (h : b ∉ body) :
    ∀ c ∈ body, (c != b) = true := by
  intro c hc
  have : c ≠ b := fun e => h (e ▸ hc)
  simpa using this

/-- A closer that no bytes have may only be behind them. -/
theorem closer?_append {body : List UInt8} (rest : List UInt8)
    (inside : ∀ i < body.length, ¬ closer <+: (body ++ closer).drop i) :
    closer? (body ++ closer ++ rest) = some (body.length + 2) := by
  apply closer?_eq_some
  · rw [List.append_assoc, List.drop_left]
    exact List.prefix_append closer rest
  · intro i hi hp
    have hwhole : (body ++ closer).drop i <+: (body ++ closer ++ rest).drop i :=
      (List.prefix_append (body ++ closer) rest).drop i
    refine inside i hi (List.prefix_of_prefix_length_le hp hwhole ?_)
    simp only [closer, List.length_drop, List.length_append, List.length_cons, List.length_nil]
    omega

/-- A class without the four blanks has no blank in it. -/
theorem blank_not {p : UInt8 → Bool} (hp : [' ', '\r', '\t', '\n'].all (!p ·.toUInt8) = true)
    {b : UInt8} (h : isBlank b = true) : p b = false := by
  have hb : b = ' '.toUInt8 ∨ b = '\r'.toUInt8 ∨ b = '\t'.toUInt8 ∨ b = '\n'.toUInt8 := by
    simpa [isBlank, newline, or_assoc] using h
  obtain ⟨hspace, hreturn, htab, hline⟩ : p ' '.toUInt8 = false ∧ p '\r'.toUInt8 = false ∧
      p '\t'.toUInt8 = false ∧ p '\n'.toUInt8 = false := by simpa [and_assoc] using hp
  rcases hb with rfl | rfl | rfl | rfl <;> assumption

/-- What begins with a byte of a class begins neither a blank nor a comment nor a string, if no byte
of the class does. -/
theorem begins_of_class {p : UInt8 → Bool} (hp : [' ', '\r', '\t', '\n'].all (!p ·.toUInt8) = true)
    (hslash : p '/'.toUInt8 = false) (hquote : p '"'.toUInt8 = false) {b : UInt8} (h : p b = true) :
    isBlank b = false ∧ b ≠ '/'.toUInt8 ∧ b ≠ '"'.toUInt8 := by
  refine ⟨?_, ?_, ?_⟩
  · rw [← Bool.not_eq_true]
    intro hblank
    rw [blank_not hp hblank] at h
    cases h
  · rintro rfl
    rw [hslash] at h
    cases h
  · rintro rfl
    rw [hquote] at h
    cases h

theorem isDigit_iff {b : UInt8} : Number.isDigit b = true ↔ 48 ≤ b.toNat ∧ b.toNat ≤ 57 := by
  simp [Number.isDigit, UInt8.le_iff_toNat_le]

theorem isWordStart_iff {b : UInt8} : isWordStart b = true ↔
    (97 ≤ b.toNat ∧ b.toNat ≤ 122 ∨ 65 ≤ b.toNat ∧ b.toNat ≤ 90) ∨ b.toNat = 95 := by
  simp only [isWordStart, Bool.or_eq_true, Bool.and_eq_true, decide_eq_true_eq, beq_iff_eq,
    UInt8.le_iff_toNat_le, ← UInt8.toNat_inj]
  rfl

theorem digit_not_word {b : UInt8} (h : isWordStart b = true) : Number.isDigit b = false := by
  rw [← Bool.not_eq_true, isDigit_iff]
  rw [isWordStart_iff] at h
  omega

theorem leading_closed {body : List UInt8} (inside : '"'.toUInt8 ∉ body) (rest : List UInt8) :
    leading '"'.toUInt8 (body ++ '"'.toUInt8 :: rest) =
      ⟨.token (.string (Text.decodeString body)), '"'.toUInt8 :: (body ++ ['"'.toUInt8])⟩ := by
  have ends : Stops (· != '"'.toUInt8) ('"'.toUInt8 :: rest) := .cons (by simp)
  have hbody := takeWhile_stops (ne_of_notMem inside) ends
  have htake : (body ++ '"'.toUInt8 :: rest).take (body.length + 1) = body ++ ['"'.toUInt8] := by
    rw [List.take_length_add_append]
    rfl
  rw [leading_string hbody, if_pos (by simp), htake]

/-- Where the rule of its sort holds, a piece is what the bytes begin with. -/
theorem CutBefore.leading_eq {piece : Piece} {rest : List UInt8} (h : CutBefore piece rest) :
    ∃ first more, piece.span ++ rest = first :: more ∧ leading first more = piece := by
  cases h with
  | blank hblank => exact ⟨_, _, rfl, leading_blank hblank _⟩
  | @lineComment body _ inside ends =>
    refine ⟨_, _, List.cons_append, ?_⟩
    rw [List.cons_append, leading_lineComment, takeWhile_stops (ne_of_notMem inside) ends]
  | @blockComment body inside =>
    refine ⟨_, _, List.cons_append, ?_⟩
    rw [List.cons_append, leading_blockComment, Piece.blockComment, closer?_append rest inside]
    simp only [show body.length + 2 = (body ++ closer).length by simp [closer], List.take_left]
  | openComment inside =>
    refine ⟨_, _, List.append_nil _, ?_⟩
    rw [leading_blockComment, Piece.blockComment, closer?_eq_none inside]
  | string inside =>
    refine ⟨_, _, List.cons_append, ?_⟩
    rw [List.append_assoc]
    exact leading_closed inside rest
  | openString inside =>
    refine ⟨_, _, List.append_nil _, ?_⟩
    rw [leading_string (takeWhile_ne_of_notMem inside), if_neg (Nat.lt_irrefl _)]
  | whole digits ends pointless =>
    refine ⟨_, _, List.cons_append, ?_⟩
    obtain ⟨hdigit, hmore⟩ := List.forall_mem_cons.mp digits
    obtain ⟨hblank, hslash, hquote⟩ := begins_of_class (by decide) rfl rfl hdigit
    rw [leading_number hblank hslash hquote hdigit (takeWhile_stops hmore ends), List.drop_left,
      pointless, List.append_nil]
    rfl
  | @decimal first place more places' _ digits digits' ends =>
    refine ⟨_, _, List.cons_append, ?_⟩
    obtain ⟨hdigit, hmore⟩ := List.forall_mem_cons.mp digits
    obtain ⟨hplace, -⟩ := List.forall_mem_cons.mp digits'
    obtain ⟨hblank, hslash, hquote⟩ := begins_of_class (by decide) rfl rfl hdigit
    have hplaces : places ('.'.toUInt8 :: (place :: places' ++ rest)) =
        '.'.toUInt8 :: place :: places' := by
      rw [places, if_pos (by simp [hplace]), takeWhile_stops digits' ends]
    rw [List.append_assoc, List.cons_append, leading_number hblank hslash hquote hdigit
      (takeWhile_stops hmore (Stops.cons rfl)), List.drop_left, hplaces]
    rfl
  | word start inside ends =>
    refine ⟨_, _, List.cons_append, ?_⟩
    obtain ⟨hblank, hslash, hquote⟩ := begins_of_class (by decide) rfl rfl start
    exact leading_word hblank hslash hquote (digit_not_word start) start
      (takeWhile_stops inside ends)
  | @pair mark second symbol entry =>
    refine ⟨_, _, List.cons_append, ?_⟩
    obtain ⟨hblank, hquote, hdigit, hword⟩ := bare_pair entry
    have hslash : ∀ other ∈ Symbol.pairs, other.1.1.toUInt8 ≠ '/'.toUInt8 := by decide
    rw [leading_operator hblank (fun h => absurd h (hslash _ entry)) hquote hdigit hword,
      operatorOrFault, List.cons_append, operator?_pair entry]
    rfl
  | single entry alone noComment =>
    refine ⟨_, _, List.cons_append, ?_⟩
    obtain ⟨hblank, hquote, hdigit, hword⟩ := bare_single entry
    rw [List.nil_append, leading_operator hblank noComment hquote hdigit hword, operatorOrFault,
      operator?_alone entry alone]
    rfl
  | question alone =>
    refine ⟨_, _, List.cons_append, ?_⟩
    have htext : Text.decodeString ['?'.toUInt8] = "?" := by decide +kernel
    rw [List.nil_append, leading_operator rfl (fun h => absurd h (by decide)) (by decide) rfl rfl,
      operatorOrFault, operator?_question, if_neg (by simpa using alone), ← htext]
    rfl
  | @unexpected first more _ strange inside ends =>
    refine ⟨_, _, List.cons_append, ?_⟩
    obtain ⟨⟨hblank, hquote, hdigit, hword⟩, hquestion, hmark⟩ := strange
    rw [leading_operator hblank _ hquote hdigit hword, operatorOrFault,
      operator?_strange hquestion hmark]
    · simp only [beq_iff_eq, hquestion, if_false, takeWhile_stops inside ends]
    · exact fun h => absurd h.symm (hmark ('/', .slash) (by decide))

theorem CutBefore.leads {piece : Piece} {first : UInt8} {more rest : List UInt8}
    (h : CutBefore piece rest) (hbytes : piece.span ++ rest = first :: more) :
    leading first more = piece := by
  obtain ⟨first', more', hbytes', hleading⟩ := h.leading_eq
  obtain ⟨rfl, rfl⟩ := List.cons.inj (hbytes'.symm.trans hbytes)
  exact hleading

/-- A source is cut into a piece and others where the rule of that piece holds. -/
theorem CutBefore.cut_eq {piece : Piece} {rest : List UInt8} (h : CutBefore piece rest) :
    cut (piece.span ++ rest) = piece :: cut rest := by
  obtain ⟨first, more, hbytes, hleading⟩ := h.leading_eq
  rw [hbytes, cut_leading, hleading, ← hbytes, List.drop_left]

theorem cut_eq_cons {source : List UInt8} {piece : Piece} {pieces : List Piece}
    (h : cut source = piece :: pieces) :
    ∃ rest, source = piece.span ++ rest ∧ CutBefore piece rest ∧ cut rest = pieces := by
  cases source with
  | nil => simp at h
  | cons first more =>
    obtain ⟨rest, hbytes, hrest⟩ := leading_cuts first more
    rw [cut_leading, List.cons.injEq] at h
    obtain ⟨rfl, rfl⟩ := h
    refine ⟨rest, hbytes, hrest, ?_⟩
    rw [hbytes, List.drop_left]

theorem low_of_digit {b : UInt8} (h : Number.isDigit b = true) : b.toNat < 0x80 := by
  rw [isDigit_iff] at h
  omega

theorem low_of_word {b : UInt8} (h : isWord b = true) : b.toNat < 0x80 := by
  rw [isWord, Bool.or_eq_true, isWordStart_iff, isDigit_iff] at h
  omega

theorem low_of_blank {b : UInt8} (h : isBlank b = true) : b.toNat < 0x80 := by
  have := blank_not (p := fun b => decide (0x80 ≤ b.toNat)) (by decide) h
  simpa using this

/-- A string or a comment, with its end or without. -/
def Wraps (piece : Piece) : Prop :=
  match piece.part with
  | .comment | .token (.string _) | .fault .unterminatedString | .fault .unterminatedComment => True
  | _ => False

/-- A piece that is no string and no comment has low bytes only, unless it is a byte that begins
nothing with the bytes that continue it. -/
theorem CutBefore.low {piece : Piece} {rest : List UInt8} (h : CutBefore piece rest) :
    piece.Wraps ∨ (∀ b ∈ piece.span, b.toNat < 0x80) ∨
      ∃ first more,
        piece = ⟨.fault (.unexpected (Text.decodeString (first :: more))), first :: more⟩ ∧
        (∀ b ∈ more, Text.continuation.holds b = true) ∧ Stops Text.continuation.holds rest := by
  cases h with
  | blank h => exact .inr (.inl (by simpa using low_of_blank h))
  | lineComment | blockComment | openComment | string | openString => exact .inl trivial
  | whole digits => exact .inr (.inl fun b hb => low_of_digit (digits b hb))
  | decimal digits digits' =>
    refine .inr (.inl fun b hb => ?_)
    rw [← List.cons_append] at hb
    rcases List.mem_append.mp hb with hb | hb
    · exact low_of_digit (digits b hb)
    rcases List.mem_cons.mp hb with rfl | hb
    · decide
    · exact low_of_digit (digits' b hb)
  | word start inside =>
    refine .inr (.inl (List.forall_mem_cons.mpr
      ⟨low_of_word ?_, fun b hb => low_of_word (inside b hb)⟩))
    simp [isWord, start]
  | pair entry =>
    have table : ∀ entry ∈ Symbol.pairs, entry.1.1.toUInt8.toNat < 0x80 ∧
        entry.1.2.toUInt8.toNat < 0x80 := by decide
    exact .inr (.inl (by simpa using table _ entry))
  | single entry =>
    have table : ∀ entry ∈ Symbol.singles, entry.1.toUInt8.toNat < 0x80 := by decide
    exact .inr (.inl (by simpa using table _ entry))
  | question =>
    have hmark : '?'.toUInt8.toNat < 0x80 := by decide
    exact .inr (.inl (by simpa using hmark))
  | unexpected _ inside ends => exact .inr (.inr ⟨_, _, rfl, inside, ends⟩)

/-- A token that is no string has low bytes only. -/
theorem CutBefore.low_of_token {kind : TokenKind} {span rest : List UInt8}
    (h : CutBefore ⟨.token kind, span⟩ rest) (noString : ∀ value, kind ≠ .string value) :
    ∀ b ∈ span, b.toNat < 0x80 := by
  obtain hwraps | low | ⟨first, more, hpiece, -⟩ := h.low
  · cases kind with
    | string value => exact absurd rfl (noString value)
    | _ => exact hwraps.elim
  · exact low
  · cases hpiece

/-- A class without the four blanks is not gone on with where a blank stands, or nothing. -/
theorem stops_blank {p : UInt8 → Bool} (hp : [' ', '\r', '\t', '\n'].all (!p ·.toUInt8) = true)
    {gap : List UInt8} (hgap : Stops (!isBlank ·) gap) : Stops p gap := by
  intro b hb
  exact blank_not hp (by simpa using hgap b hb)

/-- A token is cut off where a blank stands behind its bytes, or nothing. -/
theorem CutBefore.gap {kind : TokenKind} {span rest gap : List UInt8}
    (h : CutBefore ⟨.token kind, span⟩ rest) (hgap : Stops (!isBlank ·) gap) :
    CutBefore ⟨.token kind, span⟩ gap := by
  have hne : ∀ c : Char, isBlank c.toUInt8 = false → gap.head? ≠ some c.toUInt8 := by
    intro c hc h
    have := hgap _ h
    simp [hc] at this
  cases h with
  | string inside => exact .string inside gap
  | whole digits ends pointless =>
    refine .whole digits (stops_blank (by decide) hgap) ?_
    obtain h | ⟨place, more, rest, rfl, -⟩ := places_split gap
    · exact h
    · exact absurd rfl (hne '.' rfl)
  | decimal digits digits' ends => exact .decimal digits digits' (stops_blank (by decide) hgap)
  | word start inside ends => exact .word start inside (stops_blank (by decide) hgap)
  | pair entry => exact .pair entry gap
  | single entry alone noComment =>
    have table : ∀ other ∈ Symbol.pairs, isBlank other.1.2.toUInt8 = false := by decide
    exact .single entry (fun other hm _ => hne _ (table other hm)) fun _ =>
      ⟨hne '/' rfl, hne '*' rfl⟩

/-- The piece goes to the end of the source without the end of a string or a comment. -/
def Unclosed (piece : Piece) : Prop :=
  piece.part = .fault .unterminatedString ∨ piece.part = .fault .unterminatedComment

theorem Stops.append_newline {p : UInt8 → Bool} {rest : List UInt8} (h : Stops p rest)
    (hp : p newline = false) (more : List UInt8) : Stops p (rest ++ newline :: more) := by
  cases rest with
  | nil => exact .cons hp
  | cons b rest => exact .cons (h b rfl)

theorem head?_append_newline {b : UInt8} {rest : List UInt8} (h : rest.head? ≠ some b)
    (hb : b ≠ newline) (more : List UInt8) : (rest ++ newline :: more).head? ≠ some b := by
  cases rest with
  | nil => simpa using hb.symm
  | cons c rest => simpa using h

theorem places_append_newline {rest : List UInt8} (h : places rest = []) (more : List UInt8) :
    places (rest ++ newline :: more) = [] := by
  rcases rest with - | ⟨b, - | ⟨c, rest⟩⟩
  · rfl
  · have hdigit : Number.isDigit newline = false := rfl
    simp [places, hdigit]
  · simpa [places] using h

/-- A piece that is closed is cut off alike where another line follows. -/
theorem CutBefore.append_newline {piece : Piece} {rest : List UInt8} (h : CutBefore piece rest)
    (closed : ¬ piece.Unclosed) (more : List UInt8) :
    CutBefore piece (rest ++ newline :: more) := by
  cases h with
  | blank h => exact .blank h _
  | lineComment inside ends => exact .lineComment inside (ends.append_newline (by simp) more)
  | blockComment inside => exact .blockComment inside _
  | openComment inside => exact absurd (.inr rfl) closed
  | string inside => exact .string inside _
  | openString inside => exact absurd (.inl rfl) closed
  | whole digits ends pointless =>
    exact .whole digits (ends.append_newline rfl more) (places_append_newline pointless more)
  | decimal digits digits' ends => exact .decimal digits digits' (ends.append_newline rfl more)
  | word start inside ends => exact .word start inside (ends.append_newline rfl more)
  | pair entry => exact .pair entry _
  | single entry alone noComment =>
    have table : ∀ other ∈ Symbol.pairs, other.1.2.toUInt8 ≠ newline := by decide
    refine .single entry (fun other hm hmark => ?_) fun hslash => ?_
    · exact head?_append_newline (alone other hm hmark) (table other hm) more
    · obtain ⟨hline, hblock⟩ := noComment hslash
      exact ⟨head?_append_newline hline (by decide) more,
        head?_append_newline hblock (by decide) more⟩
  | question alone => exact .question (head?_append_newline alone (by decide) more)
  | unexpected strange inside ends =>
    exact .unexpected strange inside (ends.append_newline (by decide) more)

end ClassScript.Piece
