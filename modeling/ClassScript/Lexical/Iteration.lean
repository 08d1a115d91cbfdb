import ClassScript.Lexical.Scanner

/-! A scanner as an iterator. None of its operations goes back in the source and a turn reads at
least a byte, so the loop for the next item ends. -/
namespace ClassScript.Scanner

/-- The second scanner stands in the source of the first, and not before it. -/
structure Ahead (s after : Scanner) : Prop where
  source_eq : after.source = s.source
  position_le : s.position ≤ after.position

/-- Whatever an operation comes to, the scanner in it is ahead. -/
def Leads {α : Type} (s : Scanner) (place : α → Scanner) (result : Option α) : Prop :=
  ∀ a, result = some a → s.Ahead (place a)

section Leads

variable {s : Scanner} {α β : Type} {place : α → Scanner} {goal : β → Scanner}

theorem Ahead.refl : s.Ahead s := ⟨rfl, Nat.le_refl _⟩

theorem Ahead.trans {middle after : Scanner} (h : s.Ahead middle) (h' : middle.Ahead after) :
    s.Ahead after :=
  ⟨h'.source_eq.trans h.source_eq, Nat.le_trans h.position_le h'.position_le⟩

theorem ahead_past (count : Nat) : s.Ahead (s.past count) := ⟨rfl, Nat.le_add_right ..⟩

theorem Leads.done {b : β} (h : s.Ahead (goal b)) : s.Leads goal (some b) := by
  rintro _ ⟨⟩
  exact h

theorem Leads.bind {x : Option α} {f : α → Option β} (hx : s.Leads place x)
    (hf : ∀ a, (place a).Leads goal (f a)) : s.Leads goal (x >>= f) := by
  intro b h
  obtain ⟨a, ha, hb⟩ := Option.bind_eq_some_iff.mp h
  exact (hx a ha).trans (hf a b hb)

/-- What only looks at the source leaves the scanner where it is. -/
theorem Leads.look {x : Option α} {f : α → Option β} (hf : ∀ a, x = some a → s.Leads goal (f a)) :
    s.Leads goal (x >>= f) := by
  intro b h
  obtain ⟨a, ha, hb⟩ := Option.bind_eq_some_iff.mp h
  exact hf a ha b hb

theorem Leads.ite {c : Prop} [Decidable c] {x y : Option β} (hx : s.Leads goal x)
    (hy : s.Leads goal y) : s.Leads goal (if c then x else y) := by
  split
  · exact hx
  · exact hy

theorem Leads.mono {middle : Scanner} {x : Option β} (h : s.Ahead middle)
    (hx : middle.Leads goal x) : s.Leads goal x :=
  fun b hb => h.trans (hx b hb)

theorem leads_advance : s.Leads Prod.snd s.advance :=
  .look fun _ _ => .done (ahead_past 1)

theorem leads_matchByte (expected : UInt8) : s.Leads Prod.snd (s.matchByte expected) :=
  .look fun _ _ => .ite (.bind leads_advance fun _ => .done .refl) (.done .refl)

theorem leads_advanceWhile (p : UInt8 → Bool) (s : Scanner) : s.Leads id (s.advanceWhile p) := by
  rw [advanceWhile_step]
  refine .look fun _ _ => .ite ?_ (.done .refl)
  intro last h
  obtain ⟨⟨b, after⟩, ha, h⟩ := Option.bind_eq_some_iff.mp h
  obtain ⟨rfl, hlt⟩ := advance_eq_some ha
  exact (ahead_past 1).trans (leads_advanceWhile p (s.past 1) last h)
termination_by s.source.length - s.position
decreasing_by
  simp only [past]
  omega

theorem leads_advanceString (s : Scanner) : s.Leads id s.advanceString := by
  rw [advanceString_step]
  refine .look fun _ _ => .ite ?_ (.done .refl)
  intro last h
  obtain ⟨⟨b, after⟩, ha, h⟩ := Option.bind_eq_some_iff.mp h
  obtain ⟨rfl, hlt⟩ := advance_eq_some ha
  have passed : s.Ahead (if b == Piece.newline then (s.past 1).newLine else s.past 1) := by
    split <;> exact ⟨rfl, Nat.le_add_right ..⟩
  exact passed.trans (leads_advanceString _ last h)
termination_by s.source.length - s.position
decreasing_by
  split <;> simp only [past, newLine] <;> omega

theorem leads_either (second : UInt8) (double single : Symbol) :
    s.Leads Prod.snd (s.either second double single) :=
  .bind (leads_matchByte second) fun _ => .done ⟨rfl, Nat.le_refl _⟩

theorem leads_skipLine (searches : Searches) : s.Leads Prod.snd (s.skipLine searches) := by
  refine .look fun rest hr => ?_
  cases searches.byte? Piece.newline rest with
  | some count => exact .done (ahead_past count)
  | none => exact .done ⟨rfl, (slice?_bounds hr).1⟩

theorem leads_skipBlock (searches : Searches) : s.Leads Prod.snd (s.skipBlock searches) := by
  refine .look fun rest hr => ?_
  cases searches.row? closer rest with
  | some count => exact .look fun _ _ => .done ⟨rfl, Nat.le_add_right ..⟩
  | none => exact .done ⟨rfl, (slice?_bounds hr).1⟩

theorem leads_parseSlash (searches : Searches) : s.Leads Prod.snd (s.parseSlash searches) :=
  .bind (leads_matchByte _) fun _ => .ite (leads_skipLine searches)
    (.bind (leads_matchByte _) fun _ =>
      .ite (leads_skipBlock searches) (.done ⟨rfl, Nat.le_refl _⟩))

theorem leads_parseString : s.Leads Prod.snd s.parseString :=
  .bind (leads_advanceString s) fun _ => .ite (.done .refl)
    (.bind leads_advance fun _ => .look fun _ _ => .done ⟨rfl, Nat.le_refl _⟩)

theorem leads_advancePlaces : s.Leads id s.advancePlaces :=
  .look fun _ _ => .look fun _ _ =>
    .ite (.bind leads_advance fun _ => leads_advanceWhile _ _) (.done .refl)

theorem leads_parseNumber : s.Leads Prod.snd s.parseNumber :=
  .bind (leads_advanceWhile _ s) fun _ => .bind leads_advancePlaces fun _ =>
    .look fun _ _ => .done ⟨rfl, Nat.le_refl _⟩

theorem leads_parseWord : s.Leads Prod.snd s.parseWord :=
  .bind (leads_advanceWhile _ s) fun _ => .look fun _ _ => .done ⟨rfl, Nat.le_refl _⟩

theorem leads_parseOperator (b : UInt8) : s.Leads Prod.snd (s.parseOperator b) := by
  refine .ite ?_ (.ite (leads_either _ _ _) (.ite (leads_either _ _ _) (.ite (leads_either _ _ _)
    (.ite ?_ ?_))))
  · exact .bind (leads_matchByte _) fun _ => .ite (.done ⟨rfl, Nat.le_refl _⟩) (leads_either _ _ _)
  · exact .bind (leads_matchByte _) fun _ => .ite (.done ⟨rfl, Nat.le_refl _⟩) (.done .refl)
  · split
    · exact .done ⟨rfl, Nat.le_refl _⟩
    · exact .bind (leads_advanceWhile _ s) fun _ => .look fun _ _ => .done .refl

/-- Reading a stretch leads past its first byte. -/
theorem leads_scanToken (searches : Searches) :
    (s.past 1).Leads Prod.snd (s.scanToken searches) := by
  intro scanned h
  obtain ⟨⟨b, after⟩, ha, h⟩ := Option.bind_eq_some_iff.mp h
  obtain ⟨rfl, -⟩ := advance_eq_some ha
  refine Leads.ite ?_ (.ite ?_ (.ite (leads_parseSlash searches) (.ite leads_parseString
    (.ite leads_parseNumber (.ite leads_parseWord (leads_parseOperator b)))))) scanned h
  · exact .done ⟨rfl, Nat.le_refl _⟩
  · exact .done .refl

theorem leads_turn (searches : Searches) : (s.past 1).Leads Prod.snd (s.turn searches) := by
  have begun : (s.past 1).Ahead (s.begun.past 1) := ⟨rfl, Nat.le_refl _⟩
  refine .bind (.mono begun (leads_scanToken searches)) fun (fault?, after) => ?_
  cases fault? with
  | some fault => exact .done .refl
  | none =>
    cases hp : after.pending with
    | some kind =>
      simp only [hp]
      exact .look fun _ _ => .done ⟨rfl, Nat.le_refl _⟩
    | none =>
      simp only [hp]
      exact .done .refl

end Leads

/-- The next item. At the end of the source that is one end-of-source token, and from then on
none. -/
def next (searches : Searches) (s : Scanner) : Option (Option Item × Scanner) :=
  if s.position ≤ s.source.length then
    if s.position == s.source.length then
      some (some (.token ⟨.symbol .endOfSource, "", s.line⟩), s.past 1)
    else
      match _h : s.turn searches with
      | some (some item, after) => some (some item, after)
      | some (none, after) => after.next searches
      | none => none
  else some (none, s)
termination_by s.source.length - s.position
decreasing_by
  obtain ⟨hsource, hposition⟩ := leads_turn searches _ _h
  simp only [past, beq_iff_eq] at *
  rw [hsource]
  omega

/-- What a call of `next` gives that follows so many others. -/
def call (searches : Searches) (s : Scanner) : Nat → Option (Option Item)
  | 0 => Prod.fst <$> s.next searches
  | count + 1 => do
    let (_, s) ← s.next searches
    s.call searches count

end ClassScript.Scanner
