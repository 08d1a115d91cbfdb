import ClassScript.Syntax.Printed
import ClassScript.Proofs.Number.Readback

/-! Texts in parentheses as trees of their own. A form is read back from its text in one way only,
as long as nothing in an atom could be taken for a parenthesis, a blank or a number. -/
namespace ClassScript

/-- What a text in parentheses is made of: atoms, numbers and nodes. -/
inductive Form where
  | atom (text : String)
  | number (value : Float)
  | node (parts : List Form)

namespace Form

mutual
/-- The text of a form, the parts of a node in parentheses with blanks between them. -/
def chars : Form → List Char
  | .atom text => text.toList
  | .number value => (Number.literal value).toList
  | .node parts => '(' :: ([' '].intercalate (charsAll parts) ++ [')'])

def charsAll : List Form → List (List Char)
  | [] => []
  | x :: xs => x.chars :: charsAll xs
end

/-- The character belongs to an atom or a number. -/
def isInner (c : Char) : Bool := c != ' ' && c != '(' && c != ')'

def beginsNumber : List Char → Bool
  | '-' :: c :: _ => c.isDigit
  | c :: _ => c.isDigit
  | [] => false

/-- The text of an atom. -/
def isAtom (text : List Char) : Bool := text != [] && text.all isInner && !beginsNumber text

/-- An atom that has the text of one, or a finite number. -/
inductive Leaf : Form → Prop
  | atom {text : String} (h : isAtom text.toList) : Leaf (.atom text)
  | number {value : Float} (h : Number.isFinite value) : Leaf (.number value)

inductive Readable : Form → Prop
  | leaf {x : Form} (h : Leaf x) : Readable x
  | node {parts : List Form} (h : ∀ x ∈ parts, Readable x) : Readable (.node parts)

variable {x y : Form} {xs ys : List Form} {text text' rest rest' : List Char}

theorem isAtom_iff : isAtom text ↔
    text ≠ [] ∧ (∀ c ∈ text, isInner c) ∧ beginsNumber text = false := by
  simp [isAtom, and_assoc]

theorem isInner_of_isDigit {c : Char} (h : c.isDigit) : isInner c := by
  have blank : c ≠ ' ' := by rintro rfl; cases h
  have left : c ≠ '(' := by rintro rfl; cases h
  have right : c ≠ ')' := by rintro rfl; cases h
  simp [isInner, blank, left, right]

theorem isInner_of_numeral (h : Number.Numeral text) : ∀ c ∈ text, isInner c := by
  cases h with
  | whole hn hw => exact fun c hc => isInner_of_isDigit (hw c hc)
  | point hn hw hp =>
    intro c hc
    rcases List.mem_append.mp hc with hc | hc
    · exact isInner_of_isDigit (hw c hc)
    · rcases List.mem_cons.mp hc with rfl | hc
      · rfl
      · exact isInner_of_isDigit (hp c hc)

theorem beginsNumber_of_numeral (h : Number.Numeral text) :
    beginsNumber text ∧ beginsNumber ('-' :: text) := by
  obtain ⟨c, more, rfl, digit⟩ := h.head
  refine ⟨?_, digit⟩
  have sign : c ≠ '-' := by rintro rfl; cases digit
  unfold beginsNumber
  split
  · next hc => cases hc; exact absurd rfl sign
  · next hc => cases hc; exact digit
  · next hc => cases hc

/-- The text of a finite number is no atom, but its characters are those of one. -/
theorem inner_literal {value : Float} (h : Number.isFinite value) :
    (Number.literal value).toList ≠ [] ∧ (∀ c ∈ (Number.literal value).toList, isInner c) ∧
      beginsNumber (Number.literal value).toList := by
  rcases Number.numeral_literal h with numeral | ⟨text, he, numeral⟩
  · obtain ⟨c, more, he, -⟩ := numeral.head
    exact ⟨by rw [he]; exact List.cons_ne_nil _ _, isInner_of_numeral numeral,
      (beginsNumber_of_numeral numeral).1⟩
  · rw [he]
    exact ⟨List.cons_ne_nil _ _, List.forall_mem_cons.mpr ⟨rfl, isInner_of_numeral numeral⟩,
      (beginsNumber_of_numeral numeral).2⟩

/-- What stands behind a form that is a part of a node. -/
def Ends (rest : List Char) : Prop := ∀ c, rest.head? = some c → isInner c = false

theorem Leaf.inner (h : Leaf x) : x.chars ≠ [] ∧ ∀ c ∈ x.chars, isInner c := by
  cases h with
  | atom h => exact ⟨(isAtom_iff.mp h).1, (isAtom_iff.mp h).2.1⟩
  | number h => exact ⟨(inner_literal h).1, (inner_literal h).2.1⟩

theorem atom_ne_number {text : String} {value : Float} (ht : isAtom text.toList)
    (hv : Number.isFinite value) : text.toList ≠ (Number.literal value).toList := by
  intro h
  have free := (isAtom_iff.mp ht).2.2
  rw [h, (inner_literal hv).2.2] at free
  cases free

theorem Leaf.inj (hx : Leaf x) (hy : Leaf y) (h : x.chars = y.chars) : x = y := by
  cases hx with
  | atom hx =>
    cases hy with
    | atom hy => rw [String.toList_inj.mp h]
    | number hy => exact absurd h (atom_ne_number hx hy)
  | number hx =>
    cases hy with
    | atom hy => exact absurd h.symm (atom_ne_number hy hx)
    | number hy => rw [Number.literal_inj hx hy (String.toList_inj.mp h)]

theorem takeWhile_inner (inside : ∀ c ∈ text, isInner c) (ends : Ends rest) :
    (text ++ rest).takeWhile isInner = text := by
  rw [List.takeWhile_append_of_pos inside]
  cases rest with
  | nil => simp
  | cons c more => simp [ends c rfl]

/-- Inner characters stand apart from what follows them. -/
theorem inner_unique (inside : ∀ c ∈ text, isInner c) (inside' : ∀ c ∈ text', isInner c)
    (ends : Ends rest) (ends' : Ends rest') (h : text ++ rest = text' ++ rest') :
    text = text' ∧ rest = rest' := by
  have same : text = text' := by
    rw [← takeWhile_inner inside ends, h, takeWhile_inner inside' ends']
  subst same
  exact ⟨rfl, List.append_cancel_left h⟩

theorem Leaf.ne_node (hx : Leaf x) : x.chars ++ rest ≠ '(' :: rest' := by
  obtain ⟨nonempty, inner⟩ := hx.inner
  obtain ⟨c, more, hc⟩ := List.exists_cons_of_ne_nil nonempty
  rw [hc] at inner ⊢
  intro h
  cases h
  exact absurd (inner '(' List.mem_cons_self) (by decide)

/-- The parts of a node behind its opening parenthesis, with what stands behind the node. -/
def tail (xs : List Form) (rest : List Char) : List Char :=
  [' '].intercalate (charsAll xs) ++ ')' :: rest

/-- What stands behind the first of the parts. -/
def more : List Form → List Char → List Char
  | [], rest => ')' :: rest
  | x :: xs, rest => ' ' :: tail (x :: xs) rest

theorem tail_cons (x : Form) (xs : List Form) (rest : List Char) :
    tail (x :: xs) rest = x.chars ++ more xs rest := by
  cases xs with
  | nil => simp [tail, charsAll, more]
  | cons y ys => simp [tail, charsAll, more, List.intercalate_cons_cons]

theorem chars_node (xs : List Form) (rest : List Char) :
    (node xs).chars ++ rest = '(' :: tail xs rest := by simp [chars, tail]

theorem ends_more (xs : List Form) (rest : List Char) : Ends (more xs rest) := by
  cases xs <;> rintro c ⟨⟩ <;> rfl

/-- A form begins with neither a blank nor a closing parenthesis. -/
theorem Readable.first (h : x.Readable) : ∃ c text, x.chars = c :: text ∧ c ≠ ' ' ∧ c ≠ ')' := by
  cases h with
  | leaf leaf =>
    obtain ⟨nonempty, inner⟩ := leaf.inner
    obtain ⟨c, more, hc⟩ := List.exists_cons_of_ne_nil nonempty
    have first := inner c (by rw [hc]; exact List.mem_cons_self)
    refine ⟨c, more, hc, ?_, ?_⟩ <;> rintro rfl <;> cases first
  | node => exact ⟨'(', _, rfl, by decide, by decide⟩

/-- No part begins where a node ends. -/
theorem Readable.not_closed (h : y.Readable) : ')' :: rest ≠ tail (y :: ys) rest' := by
  obtain ⟨c, text, hc, -, right⟩ := h.first
  rw [tail_cons, hc]
  intro he
  exact right (List.cons.inj he).1.symm

/-- Whatever stands behind a form, its text is that of no other form. -/
def Unique (x : Form) : Prop :=
  ∀ {y : Form} {rest rest' : List Char}, y.Readable → Ends rest → Ends rest' →
    x.chars ++ rest = y.chars ++ rest' → x = y ∧ rest = rest'

/-- The parts of a node are read one by one, each apart from what follows it. -/
theorem tail_unique (unique : ∀ x ∈ xs, x.Unique) (hx : ∀ x ∈ xs, x.Readable)
    (hy : ∀ y ∈ ys, y.Readable) (h : tail xs rest = tail ys rest') : xs = ys ∧ rest = rest' := by
  induction xs generalizing ys with
  | nil =>
    cases ys with
    | nil => exact ⟨rfl, (List.cons.inj h).2⟩
    | cons y ys => exact absurd h (hy y List.mem_cons_self).not_closed
  | cons x xs ih =>
    cases ys with
    | nil => exact absurd h.symm (hx x List.mem_cons_self).not_closed
    | cons y ys =>
      obtain ⟨first, others⟩ := List.forall_mem_cons.mp unique
      obtain ⟨-, hxs⟩ := List.forall_mem_cons.mp hx
      obtain ⟨readable, hys⟩ := List.forall_mem_cons.mp hy
      rw [tail_cons, tail_cons] at h
      obtain ⟨rfl, behind⟩ := first readable (ends_more xs rest) (ends_more ys rest') h
      suffices xs = ys ∧ rest = rest' from ⟨by rw [this.1], this.2⟩
      cases xs with
      | nil =>
        cases ys with
        | nil => exact ⟨rfl, (List.cons.inj behind).2⟩
        | cons => cases behind
      | cons =>
        cases ys with
        | nil => cases behind
        | cons => exact ih others hxs hys (List.cons.inj behind).2

theorem Leaf.unique (hx : Leaf x) : x.Unique := by
  intro y rest rest' hy ends ends' h
  cases hy with
  | leaf hy =>
    obtain ⟨texts, behind⟩ := inner_unique hx.inner.2 hy.inner.2 ends ends' h
    exact ⟨hx.inj hy texts, behind⟩
  | node =>
    rw [chars_node] at h
    exact absurd h hx.ne_node

theorem Readable.unique (hx : x.Readable) : x.Unique := by
  induction hx with
  | leaf h => exact h.unique
  | node readable ih =>
    intro y rest rest' hy ends ends' h
    rw [chars_node] at h
    cases hy with
    | leaf hy => exact absurd h.symm hy.ne_node
    | node hy =>
      rw [chars_node] at h
      obtain ⟨rfl, behind⟩ := tail_unique ih readable hy (List.cons.inj h).2
      exact ⟨rfl, behind⟩

/-- Forms of one text are one form. -/
theorem chars_inj (hx : x.Readable) (hy : y.Readable) (h : x.chars = y.chars) : x = y := by
  have ends : Ends [] := nofun
  exact (hx.unique hy ends ends (by rw [h])).1

theorem map_chars_inj (hx : ∀ x ∈ xs, x.Readable) (hy : ∀ y ∈ ys, y.Readable)
    (h : xs.map chars = ys.map chars) : xs = ys := by
  induction xs generalizing ys with
  | nil => exact (List.map_eq_nil_iff.mp h.symm).symm
  | cons x xs ih =>
    cases ys with
    | nil => cases h
    | cons y ys =>
      obtain ⟨readable, others⟩ := List.forall_mem_cons.mp hx
      obtain ⟨readable', others'⟩ := List.forall_mem_cons.mp hy
      obtain ⟨first, behind⟩ := List.cons.inj h
      rw [chars_inj readable readable' first, ih others others' behind]

end Form

end ClassScript
