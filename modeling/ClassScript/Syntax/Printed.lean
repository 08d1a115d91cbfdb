import ClassScript.Syntax.Tree

/-! Syntax trees as text: every node in parentheses, its operator or keyword first. -/
namespace ClassScript

/-- Words in parentheses, with blanks between them. -/
def inParens (words : List String) : String := "(" ++ " ".intercalate words ++ ")"

def Literal.printed : Literal → String
  | number value => Number.literal value
  | string text => text
  | bool value => if value then "true" else "false"
  | null => "null"

mutual
def Expr.printed : Expr → String
  | .literal value => value.printed
  | .var _ name => name.lexeme
  | .assign _ name value => inParens ["=", name.lexeme, value.printed]
  | .binary left operator right => inParens [operator.lexeme, left.printed, right.printed]
  | .unary operator operand => inParens [operator.lexeme, operand.printed]
  | .logical left operator right => inParens [operator.lexeme, left.printed, right.printed]
  | .group inner => inParens ["group", inner.printed]
  | .call callee _ arguments => inParens ("call" :: callee.printed :: Expr.printedAll arguments)
  | .property object name => inParens [".", object.printed, name.lexeme]
  | .setProperty object name value =>
    inParens ["=", inParens [".", object.printed, name.lexeme], value.printed]
  | .thisRef _ _ => "this"
  | .superMethod _ _ method => inParens [".", "super", method.lexeme]

def Expr.printedAll : List Expr → List String
  | [] => []
  | e :: es => e.printed :: Expr.printedAll es
end

mutual
def Stmt.printed : Stmt → String
  | .expr e => inParens [";", e.printed]
  | .print e => inParens ["print", e.printed]
  | .letDecl name none => inParens ["let", name.lexeme]
  | .letDecl name (some value) => inParens ["let", name.lexeme, value.printed]
  | .constDecl name value => inParens ["const", name.lexeme, value.printed]
  | .block body => inParens ("block" :: Stmt.printedAll body)
  | .cond condition thenBranch none => inParens ["if", condition.printed, thenBranch.printed]
  | .cond condition thenBranch (some elseBranch) =>
    inParens ["if", condition.printed, thenBranch.printed, elseBranch.printed]
  | .loop condition body => inParens ["while", condition.printed, body.printed]
  | .function declaration => declaration.printed "function"
  | .ret _ none => inParens ["return"]
  | .ret _ (some value) => inParens ["return", value.printed]
  | .classDecl name superclass methods statics =>
    let superclass := match superclass with
      | some e => [inParens ["extends", e.printed]]
      | none => []
    inParens ("class" :: name.lexeme :: superclass ++ FunctionDecl.printedAll "method" methods
      ++ FunctionDecl.printedAll "static" statics)

def Stmt.printedAll : List Stmt → List String
  | [] => []
  | s :: ss => s.printed :: Stmt.printedAll ss

def FunctionDecl.printed (kind : String) : FunctionDecl → String
  | ⟨name, params, body⟩ =>
    inParens (kind :: name.lexeme :: inParens (params.map (·.lexeme)) :: Stmt.printedAll body)

def FunctionDecl.printedAll (kind : String) : List FunctionDecl → List String
  | [] => []
  | d :: ds => d.printed kind :: FunctionDecl.printedAll kind ds
end

end ClassScript
