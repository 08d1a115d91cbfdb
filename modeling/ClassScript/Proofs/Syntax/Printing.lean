import ClassScript.Proofs.Syntax.Forms
import ClassScript.Proofs.Syntax.Grammar

/-! The forms that syntax trees are printed as, and what a printed tree does not show: the
identities of its nodes and the lines of its tokens. -/
namespace ClassScript

def Literal.form : Literal → Form
  | .number value => .number value
  | .string text => .atom text
  | .bool value => .atom (if value then "true" else "false")
  | .null => .atom "null"

mutual
def Expr.form : Expr → Form
  | .literal value => value.form
  | .var _ name => .atom name.lexeme
  | .assign _ name value => .node [.atom "=", .atom name.lexeme, value.form]
  | .binary left operator right => .node [.atom operator.lexeme, left.form, right.form]
  | .unary operator operand => .node [.atom operator.lexeme, operand.form]
  | .logical left operator right => .node [.atom operator.lexeme, left.form, right.form]
  | .group inner => .node [.atom "group", inner.form]
  | .call callee _ arguments => .node (.atom "call" :: callee.form :: Expr.forms arguments)
  | .property object name => .node [.atom ".", object.form, .atom name.lexeme]
  | .setProperty object name value =>
    .node [.atom "=", .node [.atom ".", object.form, .atom name.lexeme], value.form]
  | .thisRef _ _ => .atom "this"
  | .superMethod _ _ method => .node [.atom ".", .atom "super", .atom method.lexeme]

def Expr.forms : List Expr → List Form
  | [] => []
  | e :: es => e.form :: Expr.forms es
end

def Expr.heritageForms : Option Expr → List Form
  | none => []
  | some e => [.node [.atom "extends", e.form]]

mutual
def Stmt.form : Stmt → Form
  | .expr e => .node [.atom ";", e.form]
  | .print e => .node [.atom "print", e.form]
  | .letDecl name none => .node [.atom "let", .atom name.lexeme]
  | .letDecl name (some value) => .node [.atom "let", .atom name.lexeme, value.form]
  | .constDecl name value => .node [.atom "const", .atom name.lexeme, value.form]
  | .block body => .node (.atom "block" :: Stmt.forms body)
  | .cond condition thenBranch none => .node [.atom "if", condition.form, thenBranch.form]
  | .cond condition thenBranch (some elseBranch) =>
    .node [.atom "if", condition.form, thenBranch.form, elseBranch.form]
  | .loop condition body => .node [.atom "while", condition.form, body.form]
  | .function declaration => declaration.form "function"
  | .ret _ none => .node [.atom "return"]
  | .ret _ (some value) => .node [.atom "return", value.form]
  | .classDecl name superclass methods statics =>
    .node (.atom "class" :: .atom name.lexeme :: (Expr.heritageForms superclass ++
      (FunctionDecl.forms "method" methods ++ FunctionDecl.forms "static" statics)))

def Stmt.forms : List Stmt → List Form
  | [] => []
  | s :: ss => s.form :: Stmt.forms ss

def FunctionDecl.form (kind : String) : FunctionDecl → Form
  | ⟨name, params, body⟩ =>
    .node (.atom kind :: .atom name.lexeme :: .node (params.map fun p => .atom p.lexeme) ::
      Stmt.forms body)

def FunctionDecl.forms (kind : String) : List FunctionDecl → List Form
  | [] => []
  | d :: ds => d.form kind :: FunctionDecl.forms kind ds
end

/-- The same token, on no line. -/
def Token.unlined (t : Token) : Token := { t with line := 0 }

mutual
/-- The same expression with the lines of all tokens left out. -/
def Expr.unlined : Expr → Expr
  | .literal value => .literal value
  | .var id name => .var id name.unlined
  | .assign id name value => .assign id name.unlined value.unlined
  | .binary left operator right => .binary left.unlined operator.unlined right.unlined
  | .unary operator operand => .unary operator.unlined operand.unlined
  | .logical left operator right => .logical left.unlined operator.unlined right.unlined
  | .group inner => .group inner.unlined
  | .call callee paren arguments =>
    .call callee.unlined paren.unlined (Expr.unlinedAll arguments)
  | .property object name => .property object.unlined name.unlined
  | .setProperty object name value => .setProperty object.unlined name.unlined value.unlined
  | .thisRef id keyword => .thisRef id keyword.unlined
  | .superMethod id keyword method => .superMethod id keyword.unlined method.unlined

def Expr.unlinedAll : List Expr → List Expr
  | [] => []
  | e :: es => e.unlined :: Expr.unlinedAll es
end

mutual
/-- The same statement with the lines of all tokens left out. -/
def Stmt.unlined : Stmt → Stmt
  | .expr e => .expr e.unlined
  | .print e => .print e.unlined
  | .letDecl name initializer => .letDecl name.unlined (initializer.map Expr.unlined)
  | .constDecl name initializer => .constDecl name.unlined initializer.unlined
  | .block body => .block (Stmt.unlinedAll body)
  | .cond condition thenBranch elseBranch =>
    .cond condition.unlined thenBranch.unlined (Stmt.unlinedOption elseBranch)
  | .loop condition body => .loop condition.unlined body.unlined
  | .function declaration => .function declaration.unlined
  | .ret keyword value => .ret keyword.unlined (value.map Expr.unlined)
  | .classDecl name superclass methods statics =>
    .classDecl name.unlined (superclass.map Expr.unlined) (FunctionDecl.unlinedAll methods)
      (FunctionDecl.unlinedAll statics)

def Stmt.unlinedAll : List Stmt → List Stmt
  | [] => []
  | s :: ss => s.unlined :: Stmt.unlinedAll ss

def Stmt.unlinedOption : Option Stmt → Option Stmt
  | none => none
  | some s => some s.unlined

def FunctionDecl.unlined : FunctionDecl → FunctionDecl
  | ⟨name, params, body⟩ => ⟨name.unlined, params.map Token.unlined, Stmt.unlinedAll body⟩

def FunctionDecl.unlinedAll : List FunctionDecl → List FunctionDecl
  | [] => []
  | d :: ds => d.unlined :: FunctionDecl.unlinedAll ds
end

/-- The literal is no string and no infinite number. -/
def Literal.Plain : Literal → Prop
  | .number value => Number.isFinite value
  | .string _ => False
  | .bool _ | .null => True

mutual
/-- All literals of the expression are plain. -/
def Expr.Plain : Expr → Prop
  | .literal value => value.Plain
  | .var _ _ | .thisRef _ _ | .superMethod _ _ _ => True
  | .assign _ _ value => value.Plain
  | .binary left _ right | .logical left _ right => left.Plain ∧ right.Plain
  | .unary _ operand => operand.Plain
  | .group inner => inner.Plain
  | .call callee _ arguments => callee.Plain ∧ Expr.PlainAll arguments
  | .property object _ => object.Plain
  | .setProperty object _ value => object.Plain ∧ value.Plain

def Expr.PlainAll : List Expr → Prop
  | [] => True
  | e :: es => e.Plain ∧ Expr.PlainAll es
end

def Expr.PlainOption : Option Expr → Prop
  | none => True
  | some e => e.Plain

mutual
/-- All literals of the statement are plain. -/
def Stmt.Plain : Stmt → Prop
  | .expr e | .print e | .constDecl _ e => e.Plain
  | .letDecl _ e | .ret _ e => Expr.PlainOption e
  | .block body => Stmt.PlainAll body
  | .cond condition thenBranch elseBranch =>
    condition.Plain ∧ thenBranch.Plain ∧ Stmt.PlainOption elseBranch
  | .loop condition body => condition.Plain ∧ body.Plain
  | .function declaration => declaration.Plain
  | .classDecl _ superclass methods statics =>
    Expr.PlainOption superclass ∧ FunctionDecl.PlainAll methods ∧ FunctionDecl.PlainAll statics

def Stmt.PlainAll : List Stmt → Prop
  | [] => True
  | s :: ss => s.Plain ∧ Stmt.PlainAll ss

def Stmt.PlainOption : Option Stmt → Prop
  | none => True
  | some s => s.Plain

def FunctionDecl.Plain : FunctionDecl → Prop
  | ⟨_, _, body⟩ => Stmt.PlainAll body

def FunctionDecl.PlainAll : List FunctionDecl → Prop
  | [] => True
  | d :: ds => d.Plain ∧ FunctionDecl.PlainAll ds
end

section Texts

theorem toList_inParens (words : List String) :
    (inParens words).toList = '(' :: ([' '].intercalate (words.map String.toList) ++ [')']) := by
  simp only [inParens, String.toList_append, String.toList_intercalate]
  rfl

theorem Form.charsAll_eq (xs : List Form) : Form.charsAll xs = xs.map Form.chars := by
  induction xs with
  | nil => rfl
  | cons x xs ih => rw [Form.charsAll, ih, List.map_cons]

/-- Words in parentheses are the text of the node whose parts have them for texts. -/
theorem toList_inParens_of {words : List String} {parts : List Form}
    (h : words.map String.toList = parts.map Form.chars) :
    (inParens words).toList = (Form.node parts).chars := by
  rw [toList_inParens, h, Form.chars, Form.charsAll_eq]

theorem Literal.toList_printed (value : Literal) : value.printed.toList = value.form.chars := by
  cases value with
  | number | null | string => rfl
  | bool value => cases value <;> rfl

mutual
/-- An expression is printed as its form. -/
theorem Expr.toList_printed : (e : Expr) → e.printed.toList = e.form.chars
  | .literal value => value.toList_printed
  | .var _ _ => rfl
  | .assign _ _ value => toList_inParens_of (by simp [value.toList_printed, Form.chars])
  | .binary left _ right | .logical left _ right =>
    toList_inParens_of (by simp [left.toList_printed, right.toList_printed, Form.chars])
  | .unary _ operand => toList_inParens_of (by simp [operand.toList_printed, Form.chars])
  | .group inner => toList_inParens_of (by simp [inner.toList_printed, Form.chars])
  | .call callee _ arguments =>
    toList_inParens_of (by simp [callee.toList_printed, Expr.toList_printedAll arguments,
      Form.chars])
  | .property object _ => toList_inParens_of (by simp [object.toList_printed, Form.chars])
  | .setProperty object _ value =>
    toList_inParens_of (by simp [toList_inParens, object.toList_printed, value.toList_printed,
      Form.chars, Form.charsAll])
  | .thisRef _ _ => rfl
  | .superMethod _ _ _ => toList_inParens_of (by simp [Form.chars])

theorem Expr.toList_printedAll : (es : List Expr) →
    (Expr.printedAll es).map String.toList = (Expr.forms es).map Form.chars
  | [] => rfl
  | e :: es => by
    rw [printedAll, forms, List.map_cons, e.toList_printed, Expr.toList_printedAll es,
      List.map_cons]
end

mutual
/-- A statement is printed as its form. -/
theorem Stmt.toList_printed : (s : Stmt) → s.printed.toList = s.form.chars
  | .expr e | .print e => toList_inParens_of (by simp [e.toList_printed, Form.chars])
  | .letDecl _ none => toList_inParens_of (by simp [Form.chars])
  | .letDecl _ (some value) | .constDecl _ value =>
    toList_inParens_of (by simp [value.toList_printed, Form.chars])
  | .block body => toList_inParens_of (by simp [Stmt.toList_printedAll body, Form.chars])
  | .cond condition thenBranch none =>
    toList_inParens_of (by simp [condition.toList_printed, thenBranch.toList_printed, Form.chars])
  | .cond condition thenBranch (some elseBranch) =>
    toList_inParens_of (by simp [condition.toList_printed, thenBranch.toList_printed,
      elseBranch.toList_printed, Form.chars])
  | .loop condition body =>
    toList_inParens_of (by simp [condition.toList_printed, body.toList_printed, Form.chars])
  | .function declaration => declaration.toList_printed "function"
  | .ret _ none => toList_inParens_of (by simp [Form.chars])
  | .ret _ (some value) => toList_inParens_of (by simp [value.toList_printed, Form.chars])
  | .classDecl _ none methods statics =>
    toList_inParens_of (by simp [FunctionDecl.toList_printedAll "method" methods,
      FunctionDecl.toList_printedAll "static" statics, Expr.heritageForms, Form.chars])
  | .classDecl _ (some e) methods statics =>
    toList_inParens_of (by simp [FunctionDecl.toList_printedAll "method" methods,
      FunctionDecl.toList_printedAll "static" statics, toList_inParens, e.toList_printed,
      Expr.heritageForms, Form.chars, Form.charsAll])

theorem Stmt.toList_printedAll : (ss : List Stmt) →
    (Stmt.printedAll ss).map String.toList = (Stmt.forms ss).map Form.chars
  | [] => rfl
  | s :: ss => by
    rw [Stmt.printedAll, Stmt.forms, List.map_cons, s.toList_printed, Stmt.toList_printedAll ss,
      List.map_cons]

theorem FunctionDecl.toList_printed (kind : String) : (d : FunctionDecl) →
    (d.printed kind).toList = (d.form kind).chars
  | ⟨name, params, body⟩ => by
    rw [FunctionDecl.printed, FunctionDecl.form]
    refine toList_inParens_of ?_
    simp [toList_inParens, Stmt.toList_printedAll body, Form.chars, Form.charsAll_eq,
      Function.comp_def]

theorem FunctionDecl.toList_printedAll (kind : String) : (ds : List FunctionDecl) →
    (FunctionDecl.printedAll kind ds).map String.toList =
    (FunctionDecl.forms kind ds).map Form.chars
  | [] => rfl
  | d :: ds => by
    rw [FunctionDecl.printedAll, FunctionDecl.forms, List.map_cons, d.toList_printed kind,
      FunctionDecl.toList_printedAll kind ds, List.map_cons]
end

end Texts

section Unnumbered

mutual
/-- Identities are not printed. -/
theorem Expr.form_unnumbered : (e : Expr) →
    e.unnumbered.form = e.form ∧ (e.Plain → e.unnumbered.Plain)
  | .literal _ | .var _ _ | .thisRef _ _ | .superMethod _ _ _ => ⟨rfl, id⟩
  | .assign _ _ e | .unary _ e | .group e | .property e _ => by
    obtain ⟨form, plain⟩ := e.form_unnumbered
    exact ⟨by simp only [Expr.unnumbered, Expr.form, form], plain⟩
  | .binary left _ right | .logical left _ right | .setProperty left _ right => by
    obtain ⟨first, plain⟩ := left.form_unnumbered
    obtain ⟨second, plain'⟩ := right.form_unnumbered
    exact ⟨by simp only [Expr.unnumbered, Expr.form, first, second], And.imp plain plain'⟩
  | .call callee _ arguments => by
    obtain ⟨first, plain⟩ := callee.form_unnumbered
    obtain ⟨others, plain'⟩ := Expr.forms_unnumbered arguments
    exact ⟨by simp only [Expr.unnumbered, Expr.form, first, others], And.imp plain plain'⟩

theorem Expr.forms_unnumbered : (es : List Expr) →
    Expr.forms (Expr.unnumberedAll es) = Expr.forms es ∧
      (Expr.PlainAll es → Expr.PlainAll (Expr.unnumberedAll es))
  | [] => ⟨rfl, id⟩
  | e :: es => by
    obtain ⟨first, plain⟩ := e.form_unnumbered
    obtain ⟨others, plain'⟩ := Expr.forms_unnumbered es
    exact ⟨by simp only [Expr.unnumberedAll, Expr.forms, first, others], And.imp plain plain'⟩
end

theorem Expr.option_unnumbered (e : Option Expr) : Expr.PlainOption e →
    Expr.PlainOption (e.map Expr.unnumbered) := by
  cases e with
  | none => exact id
  | some e => exact e.form_unnumbered.2

theorem Expr.heritageForms_unnumbered (e : Option Expr) :
    Expr.heritageForms (e.map Expr.unnumbered) = Expr.heritageForms e := by
  cases e with
  | none => rfl
  | some e => simp only [Option.map_some, Expr.heritageForms, e.form_unnumbered.1]

mutual
theorem Stmt.form_unnumbered : (s : Stmt) →
    s.unnumbered.form = s.form ∧ (s.Plain → s.unnumbered.Plain)
  | .expr e | .print e | .constDecl _ e | .letDecl _ (some e) | .ret _ (some e) => by
    obtain ⟨form, plain⟩ := e.form_unnumbered
    exact ⟨by simp only [Stmt.unnumbered, Stmt.form, Option.map_some, form], plain⟩
  | .letDecl _ none | .ret _ none => ⟨rfl, id⟩
  | .block body => by
    obtain ⟨forms, plain⟩ := Stmt.forms_unnumbered body
    exact ⟨by simp only [Stmt.unnumbered, Stmt.form, forms], plain⟩
  | .cond condition thenBranch none => by
    obtain ⟨first, plain⟩ := condition.form_unnumbered
    obtain ⟨second, plain'⟩ := thenBranch.form_unnumbered
    exact ⟨by simp only [Stmt.unnumbered, Stmt.unnumberedOption, Stmt.form, first, second],
      And.imp plain (And.imp plain' id)⟩
  | .cond condition thenBranch (some elseBranch) => by
    obtain ⟨first, plain⟩ := condition.form_unnumbered
    obtain ⟨second, plain'⟩ := thenBranch.form_unnumbered
    obtain ⟨third, plain''⟩ := elseBranch.form_unnumbered
    exact ⟨by simp only [Stmt.unnumbered, Stmt.unnumberedOption, Stmt.form, first, second, third],
      And.imp plain (And.imp plain' plain'')⟩
  | .loop condition body => by
    obtain ⟨first, plain⟩ := condition.form_unnumbered
    obtain ⟨second, plain'⟩ := body.form_unnumbered
    exact ⟨by simp only [Stmt.unnumbered, Stmt.form, first, second], And.imp plain plain'⟩
  | .function declaration => by
    obtain ⟨form, plain⟩ := declaration.form_unnumbered "function"
    exact ⟨by simp only [Stmt.unnumbered, Stmt.form, form], plain⟩
  | .classDecl _ superclass methods statics => by
    obtain ⟨first, plain⟩ := FunctionDecl.forms_unnumbered "method" methods
    obtain ⟨second, plain'⟩ := FunctionDecl.forms_unnumbered "static" statics
    exact ⟨by simp only [Stmt.unnumbered, Stmt.form, Expr.heritageForms_unnumbered, first, second],
      And.imp (Expr.option_unnumbered superclass) (And.imp plain plain')⟩

theorem Stmt.forms_unnumbered : (ss : List Stmt) →
    Stmt.forms (Stmt.unnumberedAll ss) = Stmt.forms ss ∧
      (Stmt.PlainAll ss → Stmt.PlainAll (Stmt.unnumberedAll ss))
  | [] => ⟨rfl, id⟩
  | s :: ss => by
    obtain ⟨first, plain⟩ := s.form_unnumbered
    obtain ⟨others, plain'⟩ := Stmt.forms_unnumbered ss
    exact ⟨by simp only [Stmt.unnumberedAll, Stmt.forms, first, others], And.imp plain plain'⟩

theorem FunctionDecl.form_unnumbered (kind : String) : (d : FunctionDecl) →
    d.unnumbered.form kind = d.form kind ∧ (d.Plain → d.unnumbered.Plain)
  | ⟨name, params, body⟩ => by
    obtain ⟨forms, plain⟩ := Stmt.forms_unnumbered body
    exact ⟨by simp only [FunctionDecl.unnumbered, FunctionDecl.form, forms], plain⟩

theorem FunctionDecl.forms_unnumbered (kind : String) : (ds : List FunctionDecl) →
    FunctionDecl.forms kind (FunctionDecl.unnumberedAll ds) = FunctionDecl.forms kind ds ∧
      (FunctionDecl.PlainAll ds → FunctionDecl.PlainAll (FunctionDecl.unnumberedAll ds))
  | [] => ⟨rfl, id⟩
  | d :: ds => by
    obtain ⟨first, plain⟩ := d.form_unnumbered kind
    obtain ⟨others, plain'⟩ := FunctionDecl.forms_unnumbered kind ds
    exact ⟨by simp only [FunctionDecl.unnumberedAll, FunctionDecl.forms, first, others],
      And.imp plain plain'⟩
end

end Unnumbered

end ClassScript
