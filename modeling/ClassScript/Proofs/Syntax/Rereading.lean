import ClassScript.Proofs.Lexical.Written
import ClassScript.Proofs.Syntax.Exactness
import ClassScript.Proofs.Syntax.Printing

/-! Reading printed trees. The tree of an expression or a statement can be read off its form: the
head of a node says which of its parts are expressions, statements and names. -/
namespace ClassScript

/-- The token of a symbol or a name with this text, on no line. -/
def Token.ofText (text : String) : Token := ⟨.symbol (.ofText text), text, 0⟩

namespace Form

/-- The name that an atom is. -/
def name : Form → Token
  | .atom text => .ofText text
  | _ => .ofText ""

section Expressions

/-- The expression that an atom with this symbol is. The word `super` alone is none, but stands for
one in front of a method. -/
def atomOf (s : Symbol) (text : String) : Expr :=
  match s with
  | .trueWord => .literal (.bool true)
  | .falseWord => .literal (.bool false)
  | .nullWord => .literal .null
  | .thisWord => .thisRef 0 (.ofText text)
  | _ => .var 0 (.ofText text)

def exprOfAtom (text : String) : Expr := atomOf (.ofText text) text

def access (object : Expr) (name : Token) : Expr :=
  match object with
  | .var _ t => if t.is .superWord then .superMethod 0 t name else .property object name
  | _ => .property object name

def assignment (target value : Expr) : Expr :=
  match target with
  | .var _ name => .assign 0 name value
  | .property object name => .setProperty object name value
  | _ => value

def operation (operator : Token) : List Expr → Expr
  | [left, right] => Grammar.joined left operator right
  | operands => .unary operator (operands.headD (.literal .null))

/-- The expression that a node with a head of this symbol is, from those that its parts are. -/
def nodeOf (s : Symbol) (head : String) (parts : List Expr) : Expr :=
  let part (i : Nat) : Expr := parts.getD i (.literal .null)
  match s with
  | .equal => assignment (part 0) (part 1)
  | .dot =>
    match part 1 with
    | .var _ name => access (part 0) name
    | _ => part 0
  | .identifier =>
    if head = "group" then .group (part 0) else .call (part 0) (.ofText ")") (parts.drop 1)
  | _ => operation (.ofText head) parts

def exprOfNode (head : String) (parts : List Expr) : Expr := nodeOf (.ofText head) head parts

mutual
def expr : Form → Expr
  | .atom text => exprOfAtom text
  | .number value => .literal (.number value)
  | .node (.atom head :: parts) => exprOfNode head (exprs parts)
  | .node _ => .literal .null

def exprs : List Form → List Expr
  | [] => []
  | x :: xs => x.expr :: exprs xs
end

end Expressions

end Form

namespace Token

variable {t : Token} {s : Symbol}

theorem Written.unlined_eq (h : t.Written) (ht : t.is s) : t.unlined = ofText t.lexeme := by
  have kind := is_iff.mp ht
  rw [unlined, ofText, h.symbol s kind, kind]

theorem Written.entry (h : t.Written) (ht : t.is s) (hs : s ≠ .identifier) :
    (t.lexeme, s) ∈ Symbol.texts := by
  have text := h.symbol s (is_iff.mp ht)
  rw [← text] at hs ⊢
  exact Symbol.mem_of_ofText hs

/-- A symbol with one text only. -/
theorem Written.unlined_eq_of (h : t.Written) (ht : t.is s) (hs : s ≠ .identifier) {text : String}
    (only : ∀ entry ∈ Symbol.texts, entry.2 = s → entry.1 = text) : t.unlined = ofText text := by
  have text : t.lexeme = text := only _ (h.entry ht hs) rfl
  rw [h.unlined_eq ht, text]

theorem Written.isAtom (h : t.Written) (ht : t.is s) (hs : s ≠ .leftParen) (hs' : s ≠ .rightParen) :
    Form.isAtom t.lexeme.toList := by
  by_cases name : s = .identifier
  · obtain ⟨inner, c, more, hc, digit, sign⟩ := h.name (name ▸ ht)
    rw [Form.isAtom_iff]
    refine ⟨by rw [hc]; exact List.cons_ne_nil _ _, fun c hc => ?_, ?_⟩
    · obtain ⟨blank, left, right⟩ := inner c hc
      simp [Form.isInner, blank, left, right]
    · rw [hc]
      unfold Form.beginsNumber
      split
      · next he => cases he; exact absurd rfl sign
      · next he => cases he; exact digit
      · rfl
  · have table : ∀ entry ∈ Symbol.texts, entry.2 ≠ .leftParen → entry.2 ≠ .rightParen →
        Form.isAtom entry.1.toList := by decide +kernel
    exact table (t.lexeme, s) (h.entry ht name) hs hs'

/-- A name of a scanned source. -/
structure Named (t : Token) : Prop where
  text : Symbol.ofText t.lexeme = .identifier
  atom : Form.isAtom t.lexeme.toList
  unlined_eq : t.unlined = ofText t.lexeme

theorem Written.named (h : t.Written) (ht : t.is .identifier) : t.Named where
  text := h.symbol _ (is_iff.mp ht)
  atom := h.isAtom ht (by decide) (by decide)
  unlined_eq := h.unlined_eq ht

theorem Named.exprOfAtom (h : t.Named) : Form.exprOfAtom t.lexeme = .var 0 t.unlined := by
  rw [h.unlined_eq]
  exact congrArg (Form.atomOf · t.lexeme) h.text

end Token

namespace Form

variable {head : String} {parts : List Expr} {a b : Expr}

theorem exprOfAtom_true : exprOfAtom "true" = .literal (.bool true) :=
  congrArg (atomOf · _) (by decide : Symbol.ofText "true" = .trueWord)

theorem exprOfAtom_false : exprOfAtom "false" = .literal (.bool false) :=
  congrArg (atomOf · _) (by decide : Symbol.ofText "false" = .falseWord)

theorem exprOfAtom_null : exprOfAtom "null" = .literal .null :=
  congrArg (atomOf · _) (by decide : Symbol.ofText "null" = .nullWord)

theorem exprOfAtom_this : exprOfAtom "this" = .thisRef 0 (.ofText "this") :=
  congrArg (atomOf · _) (by decide : Symbol.ofText "this" = .thisWord)

theorem exprOfAtom_super : exprOfAtom "super" = .var 0 (.ofText "super") :=
  congrArg (atomOf · _) (by decide : Symbol.ofText "super" = .superWord)

theorem exprOfNode_equal : exprOfNode "=" [a, b] = assignment a b :=
  congrArg (nodeOf · _ _) (by decide : Symbol.ofText "=" = .equal)

theorem exprOfNode_dot {id : Nat} {t : Token} : exprOfNode "." [a, .var id t] = access a t :=
  congrArg (nodeOf · _ _) (by decide : Symbol.ofText "." = .dot)

theorem exprOfNode_group : exprOfNode "group" [a] = .group a := by
  have text : Symbol.ofText "group" = .identifier := by decide
  rw [exprOfNode, text]
  unfold nodeOf
  exact if_pos rfl

theorem exprOfNode_call : exprOfNode "call" (a :: parts) = .call a (.ofText ")") parts := by
  have text : Symbol.ofText "call" = .identifier := by decide
  rw [exprOfNode, text]
  unfold nodeOf
  exact if_neg (by decide)

/-- The symbol heads operations only. -/
def IsOperator (s : Symbol) : Prop := s ∉ [.equal, .dot, .identifier, .leftParen, .rightParen]

instance : DecidablePred IsOperator := fun s => inferInstanceAs (Decidable (s ∉ _))

theorem exprOfNode_operator (h : IsOperator (Symbol.ofText head)) :
    exprOfNode head parts = operation (.ofText head) parts := by
  unfold exprOfNode nodeOf
  split
  · next hs => exact absurd (by rw [hs]; decide) h
  · next hs => exact absurd (by rw [hs]; decide) h
  · next hs => exact absurd (by rw [hs]; decide) h
  · rfl

theorem readable_atom {text : String} (h : isAtom text.toList) : (Form.atom text).Readable :=
  .leaf (.atom h)

theorem readable_node {xs : List Form} (hh : isAtom head.toList) (h : ∀ x ∈ xs, x.Readable) :
    (Form.node (.atom head :: xs)).Readable :=
  .node (List.forall_mem_cons.mpr ⟨readable_atom hh, h⟩)

end Form

/-- The expression can be read off its form. -/
structure Expr.Reread (e : Expr) : Prop where
  expr : e.form.expr = e.unlined
  readable : e.form.Readable

/-- The expressions can be read off their forms. -/
structure Expr.RereadAll (es : List Expr) : Prop where
  exprs : Form.exprs (Expr.forms es) = Expr.unlinedAll es
  readable : ∀ x ∈ Expr.forms es, x.Readable

namespace Grammar

open Form

variable {left right object value callee e : Expr} {operator name paren t : Token} {es : List Expr}
  {rank : Nat} {ts : List Token}

theorem rank?_operator (h : rank? t = some rank) : ∃ s, t.is s ∧ IsOperator s := by
  obtain ⟨s, kind⟩ := rank?_symbol h
  refine ⟨s, Token.is_iff.mpr kind, fun hs => ?_⟩
  simp only [List.mem_cons, List.not_mem_nil, or_false] at hs
  rcases hs with rfl | rfl | rfl | rfl | rfl <;> simp [rank?, kind] at h

theorem form_joined : (joined left operator right).form =
    .node [.atom operator.lexeme, left.form, right.form] := by
  unfold joined
  split <;> rfl

theorem unlined_joined : (joined left operator right).unlined =
    joined left.unlined operator.unlined right.unlined := by
  have kinds : operator.unlined.is = operator.is := rfl
  unfold joined
  rw [kinds]
  split <;> rfl

theorem plain_joined : (joined left operator right).Plain ↔ left.Plain ∧ right.Plain := by
  unfold joined
  split <;> rfl

/-- An operator, as the head of a node. -/
structure Heads (t : Token) : Prop where
  operator : IsOperator (Symbol.ofText t.lexeme)
  atom : isAtom t.lexeme.toList
  unlined_eq : t.unlined = .ofText t.lexeme

theorem heads {s : Symbol} (h : t.Written) (ht : t.is s) (hs : IsOperator s) : Heads t where
  operator := by rwa [h.symbol s (Token.is_iff.mp ht)]
  atom := h.isAtom ht (by rintro rfl; exact hs (by decide)) (by rintro rfl; exact hs (by decide))
  unlined_eq := h.unlined_eq ht

theorem reread_joined (hl : left.Reread) (h : Heads operator) (hr : right.Reread) :
    (joined left operator right).Reread where
  expr := by
    rw [form_joined, unlined_joined, h.unlined_eq, ← hl.expr, ← hr.expr]
    exact exprOfNode_operator h.operator
  readable := by
    rw [form_joined]
    exact readable_node h.atom (by simp [hl.readable, hr.readable])

theorem reread_unary (h : Heads operator) (he : e.Reread) : (Expr.unary operator e).Reread where
  expr := by
    show _ = Expr.unary operator.unlined e.unlined
    rw [h.unlined_eq, ← he.expr]
    exact exprOfNode_operator h.operator
  readable := readable_node h.atom (by simp [he.readable])

theorem reread_name (h : name.Named) : (Expr.var 0 name).Reread where
  expr := h.exprOfAtom
  readable := readable_atom h.atom

theorem reread_assign (h : name.Named) (hv : value.Reread) : (Expr.assign 0 name value).Reread where
  expr := by
    show exprOfNode "=" [exprOfAtom name.lexeme, value.form.expr] = _
    rw [h.exprOfAtom, hv.expr, exprOfNode_equal]
    rfl
  readable := readable_node (by decide) (by simp [readable_atom h.atom, hv.readable])

theorem reread_group (h : e.Reread) : (Expr.group e).Reread where
  expr := exprOfNode_group.trans (congrArg Expr.group h.expr)
  readable := readable_node (by decide) (by simp [h.readable])

theorem reread_call (hc : callee.Reread) (hp : paren.unlined = .ofText ")")
    (he : Expr.RereadAll es) : (Expr.call callee paren es).Reread where
  expr := by
    show exprOfNode "call" (callee.form.expr :: exprs (Expr.forms es)) =
      .call callee.unlined paren.unlined (Expr.unlinedAll es)
    rw [hc.expr, he.exprs, hp, exprOfNode_call]
  readable := readable_node (by decide) (List.forall_mem_cons.mpr ⟨hc.readable, he.readable⟩)

/-- An object that is called or accessed is no lone `super`. -/
theorem access_object (h : (Phrase.call object).Derives ts) (name : Token) :
    access object.unlined name = .property object.unlined name := by
  cases object with
  | var id t =>
    have isName : t.is .identifier := by
      cases h with
      | primary h =>
        cases h with
        | name h => exact h
    have other : t.unlined.is .superWord = false := Token.is_other isName (by decide)
    exact if_neg (by rw [other]; decide)
  | _ => rfl

theorem reread_property (h : (Phrase.call object).Derives ts) (ho : object.Reread)
    (hn : name.Named) : (Expr.property object name).Reread where
  expr := by
    show exprOfNode "." [object.form.expr, exprOfAtom name.lexeme] = _
    rw [hn.exprOfAtom, ho.expr, exprOfNode_dot, access_object h]
    rfl
  readable := readable_node (by decide) (by simp [ho.readable, readable_atom hn.atom])

theorem reread_setProperty (h : (Phrase.call object).Derives ts) (ho : object.Reread)
    (hn : name.Named) (hv : value.Reread) : (Expr.setProperty object name value).Reread where
  expr := by
    show exprOfNode "=" [(Expr.property object name).form.expr, value.form.expr] = _
    rw [(reread_property h ho hn).expr, hv.expr, exprOfNode_equal]
    rfl
  readable := by
    have target : (Form.node [.atom ".", object.form, .atom name.lexeme]).Readable :=
      (reread_property h ho hn).readable
    exact readable_node (by decide) (by simp [target, hv.readable])

theorem reread_super (ht : t.unlined = .ofText "super") (hn : name.Named) :
    (Expr.superMethod 0 t name).Reread where
  expr := by
    have is : (Token.ofText "super").is .superWord := by decide
    show exprOfNode "." [exprOfAtom "super", exprOfAtom name.lexeme] =
      .superMethod 0 t.unlined name.unlined
    rw [hn.exprOfAtom, exprOfAtom_super, exprOfNode_dot, ht, access, if_pos is]
  readable := by
    have word : (atom "super").Readable := readable_atom (by decide)
    exact readable_node (by decide) (by simp [word, readable_atom hn.atom])

theorem reread_cons (h : e.Reread) (hs : Expr.RereadAll es) : Expr.RereadAll (e :: es) where
  exprs := congrArg₂ List.cons h.expr hs.exprs
  readable := List.forall_mem_cons.mpr ⟨h.readable, hs.readable⟩

theorem closing (h : t.Written) (ht : t.is .rightParen) : t.unlined = .ofText ")" :=
  h.unlined_eq_of ht (by decide) (by decide)

/-- What a phrase says can be read off its form, if all its literals are plain. -/
def Phrase.Reread : Phrase → Prop
  | .expression e | .operation _ e | .unary e | .call e | .primary e => e.Plain → e.Reread
  | .arguments es => Expr.PlainAll es → Expr.RereadAll es

theorem Phrase.Derives.reread {p : Phrase} (h : p.Derives ts) (written : ∀ t ∈ ts, t.Written) :
    p.Reread := by
  induction h with
  | assign isName isEqual assigned ih =>
    simp only [List.forall_mem_cons] at written
    exact fun plain => reread_assign (written.1.named isName) (ih written.2.2 plain)
  | setProperty target isDot isName isEqual assigned ihObject ih =>
    simp only [List.forall_mem_append, List.forall_mem_cons] at written
    obtain ⟨first, -, name, -, behind⟩ := written
    exact fun plain => reread_setProperty target (ihObject first plain.1) (name.named isName)
      (ih behind plain.2)
  | operation _ ih | operand _ ih | factor _ ih | call _ ih | primary _ ih => exact ih written
  | join first hasRank second ihLeft ihRight =>
    simp only [List.forall_mem_append, List.forall_mem_cons] at written
    obtain ⟨front, operator, behind⟩ := written
    obtain ⟨s, is, isOperator⟩ := rank?_operator hasRank
    intro plain
    obtain ⟨plain, plain'⟩ := plain_joined.mp plain
    exact reread_joined (ihLeft front plain) (heads operator is isOperator) (ihRight behind plain')
  | @prefixed operator _ _ isOperator _ ih =>
    simp only [List.forall_mem_cons] at written
    obtain ⟨s, is, isHead⟩ : ∃ s, operator.is s ∧ IsOperator s := by
      rcases isOperator with is | is | is <;> exact ⟨_, is, by decide⟩
    exact fun plain => reread_unary (heads written.1 is isHead) (ih written.2 plain)
  | applyNone _ isOpen isClose ih =>
    simp only [List.forall_mem_append, List.forall_mem_cons] at written
    obtain ⟨front, -, close, -⟩ := written
    exact fun plain => reread_call (ih front plain.1) (closing close isClose) ⟨rfl, nofun⟩
  | apply _ isOpen _ few isClose ih ihArguments =>
    simp only [List.forall_mem_append, List.forall_mem_cons] at written
    obtain ⟨front, -, given, close, -⟩ := written
    exact fun plain => reread_call (ih front plain.1) (closing close isClose)
      (ihArguments given plain.2)
  | property h isDot isName ih =>
    simp only [List.forall_mem_append, List.forall_mem_cons] at written
    obtain ⟨front, -, name, -⟩ := written
    exact fun plain => reread_property h (ih front plain) (name.named isName)
  | lastArgument _ ih => exact fun plain => reread_cons (ih written plain.1) ⟨rfl, nofun⟩
  | argument _ isComma _ ih ihMore =>
    simp only [List.forall_mem_append, List.forall_mem_cons] at written
    obtain ⟨front, -, behind⟩ := written
    exact fun plain => reread_cons (ih front plain.1) (ihMore behind plain.2)
  | number => exact fun plain => ⟨rfl, .leaf (.number plain)⟩
  | string => exact fun plain => plain.elim
  | true => exact fun _ => ⟨exprOfAtom_true, readable_atom (by decide)⟩
  | false => exact fun _ => ⟨exprOfAtom_false, readable_atom (by decide)⟩
  | null => exact fun _ => ⟨exprOfAtom_null, readable_atom (by decide)⟩
  | this h =>
    have word : Token.unlined _ = .ofText "this" :=
      (written _ List.mem_cons_self).unlined_eq_of h (by decide) (by decide)
    exact fun _ => ⟨exprOfAtom_this.trans (by rw [← word]; rfl), readable_atom (by decide)⟩
  | super h isDot isName =>
    simp only [List.forall_mem_cons] at written
    obtain ⟨keyword, -, name, -⟩ := written
    exact fun _ => reread_super (keyword.unlined_eq_of h (by decide) (by decide))
      (name.named isName)
  | name h => exact fun _ => reread_name ((written _ List.mem_cons_self).named h)
  | group isOpen _ isClose ih =>
    simp only [List.forall_mem_append, List.forall_mem_cons] at written
    exact fun plain => reread_group (ih written.2.1 plain)

end Grammar

end ClassScript
