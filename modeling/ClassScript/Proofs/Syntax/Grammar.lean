import ClassScript.Syntax.Tree

/-! The grammar of the language, apart from any way to read it: which tokens a phrase derives, and
which tree the derivation stands for. The trees of the grammar carry no identities, so a tree that
was read is held against them with its identities left out. -/
namespace ClassScript

mutual
/-- The same expression with all identities left out. -/
def Expr.unnumbered : Expr → Expr
  | .literal value => .literal value
  | .var _ name => .var 0 name
  | .assign _ name value => .assign 0 name value.unnumbered
  | .binary left operator right => .binary left.unnumbered operator right.unnumbered
  | .unary operator operand => .unary operator operand.unnumbered
  | .logical left operator right => .logical left.unnumbered operator right.unnumbered
  | .group inner => .group inner.unnumbered
  | .call callee paren arguments => .call callee.unnumbered paren (Expr.unnumberedAll arguments)
  | .property object name => .property object.unnumbered name
  | .setProperty object name value => .setProperty object.unnumbered name value.unnumbered
  | .thisRef _ keyword => .thisRef 0 keyword
  | .superMethod _ keyword method => .superMethod 0 keyword method

def Expr.unnumberedAll : List Expr → List Expr
  | [] => []
  | e :: es => e.unnumbered :: Expr.unnumberedAll es
end

mutual
/-- The same statement with all identities left out. -/
def Stmt.unnumbered : Stmt → Stmt
  | .expr e => .expr e.unnumbered
  | .print e => .print e.unnumbered
  | .letDecl name initializer => .letDecl name (initializer.map Expr.unnumbered)
  | .constDecl name initializer => .constDecl name initializer.unnumbered
  | .block body => .block (Stmt.unnumberedAll body)
  | .cond condition thenBranch elseBranch =>
    .cond condition.unnumbered thenBranch.unnumbered (Stmt.unnumberedOption elseBranch)
  | .loop condition body => .loop condition.unnumbered body.unnumbered
  | .function declaration => .function declaration.unnumbered
  | .ret keyword value => .ret keyword (value.map Expr.unnumbered)
  | .classDecl name superclass methods statics =>
    .classDecl name (superclass.map Expr.unnumbered) (FunctionDecl.unnumberedAll methods)
      (FunctionDecl.unnumberedAll statics)

def Stmt.unnumberedAll : List Stmt → List Stmt
  | [] => []
  | s :: ss => s.unnumbered :: Stmt.unnumberedAll ss

def Stmt.unnumberedOption : Option Stmt → Option Stmt
  | none => none
  | some s => some s.unnumbered

def FunctionDecl.unnumbered : FunctionDecl → FunctionDecl
  | ⟨name, params, body⟩ => ⟨name, params, Stmt.unnumberedAll body⟩

def FunctionDecl.unnumberedAll : List FunctionDecl → List FunctionDecl
  | [] => []
  | d :: ds => d.unnumbered :: FunctionDecl.unnumberedAll ds
end

@[simp] theorem Expr.unnumberedAll_length (es : List Expr) :
    (Expr.unnumberedAll es).length = es.length := by
  induction es with
  | nil => rfl
  | cons e es ih => simp [Expr.unnumberedAll, ih]

namespace Grammar

/-- The rank of a binary operator. One of a higher rank binds tighter; below all of them stands the
assignment. -/
def rank? (t : Token) : Option Nat :=
  match t.kind with
  | .symbol .coalesce => some 1
  | .symbol .orWord => some 2
  | .symbol .andWord => some 3
  | .symbol .bangEqual | .symbol .equalEqual => some 4
  | .symbol .greater | .symbol .greaterEqual | .symbol .less | .symbol .lessEqual => some 5
  | .symbol .minus | .symbol .plus => some 6
  | .symbol .slash | .symbol .star | .symbol .mod => some 7
  | _ => none

/-- The tree of a binary operator and its operands. -/
def joined (left : Expr) (operator : Token) (right : Expr) : Expr :=
  if operator.is .orWord || operator.is .andWord then .logical left operator right
  else .binary left operator right

/-- The phrases that stand for expressions, each with its tree. An operation of some rank joins its
operands by operators of that rank or of higher ones. -/
inductive Phrase where
  | expression (e : Expr)
  | operation (rank : Nat) (e : Expr)
  | unary (e : Expr)
  | call (e : Expr)
  | primary (e : Expr)
  | arguments (es : List Expr)

/-- The tokens that a phrase derives. -/
inductive Phrase.Derives : Phrase → List Token → Prop where
  -- assignment → ( call "." )? IDENT "=" assignment | coalesce
  | assign {name equals : Token} {value : Expr} {ts : List Token}
      (isName : name.is .identifier) (isEqual : equals.is .equal)
      (assigned : (expression value).Derives ts) :
      (expression (.assign 0 name value)).Derives (name :: equals :: ts)
  | setProperty {object value : Expr} {dot name equals : Token} {os ts : List Token}
      (target : (call object).Derives os) (isDot : dot.is .dot) (isName : name.is .identifier)
      (isEqual : equals.is .equal) (assigned : (expression value).Derives ts) :
      (expression (.setProperty object name value)).Derives (os ++ dot :: name :: equals :: ts)
  | operation {e : Expr} {ts : List Token} (h : (operation 1 e).Derives ts) :
      (expression e).Derives ts
  -- coalesce → logic_or ( "??" logic_or )*, and the same down to factor → unary ( … unary )*
  | join {rank : Nat} {left right : Expr} {operator : Token} {ls rs : List Token}
      (first : (operation rank left).Derives ls) (hasRank : rank? operator = some rank)
      (second : (operation (rank + 1) right).Derives rs) :
      (operation rank (joined left operator right)).Derives (ls ++ operator :: rs)
  | operand {rank : Nat} {e : Expr} {ts : List Token} (h : (operation (rank + 1) e).Derives ts) :
      (operation rank e).Derives ts
  | factor {e : Expr} {ts : List Token} (h : (unary e).Derives ts) : (operation 8 e).Derives ts
  -- unary → ( "!" | "!!" | "-" ) unary | call
  | prefixed {operator : Token} {e : Expr} {ts : List Token}
      (isOperator : operator.is .bang ∨ operator.is .doubleBang ∨ operator.is .minus)
      (h : (unary e).Derives ts) : (unary (.unary operator e)).Derives (operator :: ts)
  | call {e : Expr} {ts : List Token} (h : (call e).Derives ts) : (unary e).Derives ts
  -- call → primary ( "(" arguments? ")" | "." IDENT )*
  | primary {e : Expr} {ts : List Token} (h : (primary e).Derives ts) : (call e).Derives ts
  | applyNone {callee : Expr} {left right : Token} {ts : List Token}
      (applied : (call callee).Derives ts) (isOpen : left.is .leftParen)
      (isClose : right.is .rightParen) :
      (call (.call callee right [])).Derives (ts ++ [left, right])
  | apply {callee : Expr} {es : List Expr} {left right : Token} {ts us : List Token}
      (applied : (call callee).Derives ts) (isOpen : left.is .leftParen)
      (given : (arguments es).Derives us) (few : es.length ≤ 255)
      (isClose : right.is .rightParen) :
      (call (.call callee right es)).Derives (ts ++ left :: (us ++ [right]))
  | property {object : Expr} {dot name : Token} {ts : List Token} (h : (call object).Derives ts)
      (isDot : dot.is .dot) (isName : name.is .identifier) :
      (call (.property object name)).Derives (ts ++ [dot, name])
  -- arguments → expression ( "," expression )*
  | lastArgument {e : Expr} {ts : List Token} (h : (expression e).Derives ts) :
      (arguments [e]).Derives ts
  | argument {e : Expr} {es : List Expr} {comma : Token} {ts us : List Token}
      (h : (expression e).Derives ts) (isComma : comma.is .comma)
      (more : (arguments es).Derives us) : (arguments (e :: es)).Derives (ts ++ comma :: us)
  -- primary → NUMBER | STRING | "true" | "false" | "null" | "this" | "super" "." IDENT | IDENT
  --   | "(" expression ")"
  | number {t : Token} {value : Float} (h : t.kind = .number value) :
      (primary (.literal (.number value))).Derives [t]
  | string {t : Token} {text : String} (h : t.kind = .string text) :
      (primary (.literal (.string text))).Derives [t]
  | true {t : Token} (h : t.is .trueWord) : (primary (.literal (.bool Bool.true))).Derives [t]
  | false {t : Token} (h : t.is .falseWord) : (primary (.literal (.bool Bool.false))).Derives [t]
  | null {t : Token} (h : t.is .nullWord) : (primary (.literal .null)).Derives [t]
  | this {t : Token} (h : t.is .thisWord) : (primary (.thisRef 0 t)).Derives [t]
  | super {t dot name : Token} (h : t.is .superWord) (isDot : dot.is .dot)
      (isName : name.is .identifier) : (primary (.superMethod 0 t name)).Derives [t, dot, name]
  | name {t : Token} (h : t.is .identifier) : (primary (.var 0 t)).Derives [t]
  | group {left right : Token} {e : Expr} {ts : List Token} (isOpen : left.is .leftParen)
      (inner : (expression e).Derives ts) (isClose : right.is .rightParen) :
      (primary (.group e)).Derives (left :: (ts ++ [right]))

/-- An expression or nothing. -/
inductive Perhaps : Option Expr → List Token → Prop where
  | none : Perhaps none []
  | some {e : Expr} {ts : List Token} (h : (Phrase.expression e).Derives ts) : Perhaps (some e) ts

-- ( "=" expression )?
inductive Initializer : Option Expr → List Token → Prop where
  | none : Initializer none []
  | some {equals : Token} {e : Expr} {ts : List Token} (isEqual : equals.is .equal)
      (h : (Phrase.expression e).Derives ts) : Initializer (some e) (equals :: ts)

-- letDecl → "let" IDENT ( "=" expression )? ";"
inductive LetDecl : Stmt → List Token → Prop where
  | mk {keyword name semicolon : Token} {e : Option Expr} {ts : List Token}
      (isLet : keyword.is .letWord) (isName : name.is .identifier) (value : Initializer e ts)
      (ends : semicolon.is .semicolon) :
      LetDecl (.letDecl name e) (keyword :: name :: (ts ++ [semicolon]))

-- exprStmt → expression ";"
inductive ExprStmt : Stmt → List Token → Prop where
  | mk {e : Expr} {ts : List Token} {semicolon : Token} (h : (Phrase.expression e).Derives ts)
      (ends : semicolon.is .semicolon) : ExprStmt (.expr e) (ts ++ [semicolon])

/-- The first clause of a `for` statement, with its semicolon. -/
inductive ForInitializer : Option Stmt → List Token → Prop where
  | none {semicolon : Token} (ends : semicolon.is .semicolon) : ForInitializer none [semicolon]
  | letDecl {s : Stmt} {ts : List Token} (h : LetDecl s ts) : ForInitializer (some s) ts
  | exprStmt {s : Stmt} {ts : List Token} (h : ExprStmt s ts) : ForInitializer (some s) ts

-- "(" ( letDecl | exprStmt | ";" ) expression? ";" expression? ")"
inductive ForClauses : Option Stmt × Option Expr × Option Expr → List Token → Prop where
  | mk {left semicolon right : Token} {initializer : Option Stmt} {condition step : Option Expr}
      {is cs ss : List Token} (isOpen : left.is .leftParen) (first : ForInitializer initializer is)
      (second : Perhaps condition cs) (isSemicolon : semicolon.is .semicolon)
      (third : Perhaps step ss) (isClose : right.is .rightParen) :
      ForClauses (initializer, condition, step)
        (left :: (is ++ (cs ++ semicolon :: (ss ++ [right]))))

-- "(" expression ")"
inductive Condition : Expr → List Token → Prop where
  | mk {left right : Token} {e : Expr} {ts : List Token} (isOpen : left.is .leftParen)
      (h : (Phrase.expression e).Derives ts) (isClose : right.is .rightParen) :
      Condition e (left :: (ts ++ [right]))

-- ( "extends" IDENT )?
inductive Heritage : Option Expr → List Token → Prop where
  | none : Heritage none []
  | some {keyword name : Token} (isExtends : keyword.is .extendsWord)
      (isName : name.is .identifier) : Heritage (some (.var 0 name)) [keyword, name]

-- parameters → IDENT ( "," IDENT )*
inductive Parameters : List Token → List Token → Prop where
  | last {name : Token} (isName : name.is .identifier) : Parameters [name] [name]
  | more {name comma : Token} {names ts : List Token} (isName : name.is .identifier)
      (isComma : comma.is .comma) (h : Parameters names ts) :
      Parameters (name :: names) (name :: comma :: ts)

-- parameters?
inductive ParametersOrNone : List Token → List Token → Prop where
  | none : ParametersOrNone [] []
  | some {names ts : List Token} (h : Parameters names ts) : ParametersOrNone names ts

/-- The body of a loop, with the step that runs after it. -/
def stepped (body : Stmt) : Option Expr → Stmt
  | none => body
  | some step => .block [body, .expr step]

/-- A loop, with the statement that runs before it in a block around the two. -/
def preceded (loop : Stmt) : Option Stmt → Stmt
  | none => loop
  | some initializer => .block [initializer, loop]

/-- The phrases that stand for statements, each with its tree. A statement is dangling if it ends in
an `if` without `else`, to which an `else` behind it would belong. -/
inductive Sentence where
  | declaration (s : Stmt)
  | statement (dangling : Bool) (s : Stmt)
  | declarations (ss : List Stmt)
  | members (methods statics : List FunctionDecl)
  | function (d : FunctionDecl)

/-- The tokens that a sentence derives. -/
inductive Sentence.Derives : Sentence → List Token → Prop where
  -- declaration → classDecl | funDecl | letDecl | constDecl | statement
  | classDecl {keyword name left right : Token} {superclass : Option Expr}
      {methods statics : List FunctionDecl} {hs ts : List Token} (isClass : keyword.is .classWord)
      (isName : name.is .identifier) (heritage : Heritage superclass hs)
      (isOpen : left.is .leftBrace) (body : (members methods statics).Derives ts)
      (isClose : right.is .rightBrace) :
      (declaration (.classDecl name superclass methods statics)).Derives
        (keyword :: name :: (hs ++ left :: (ts ++ [right])))
  | funDecl {keyword : Token} {d : FunctionDecl} {ts : List Token}
      (isFunction : keyword.is .functionWord) (h : (function d).Derives ts) :
      (declaration (.function d)).Derives (keyword :: ts)
  | letDecl {s : Stmt} {ts : List Token} (h : LetDecl s ts) : (declaration s).Derives ts
  | constDecl {keyword name equals semicolon : Token} {e : Expr} {ts : List Token}
      (isConst : keyword.is .constWord) (isName : name.is .identifier) (isEqual : equals.is .equal)
      (value : (Phrase.expression e).Derives ts) (ends : semicolon.is .semicolon) :
      (declaration (.constDecl name e)).Derives (keyword :: name :: equals :: (ts ++ [semicolon]))
  | statement {dangling : Bool} {s : Stmt} {ts : List Token}
      (h : (statement dangling s).Derives ts) : (declaration s).Derives ts
  -- statement → exprStmt | printStmt | forStmt | whileStmt | ifStmt | block | returnStmt
  | exprStmt {s : Stmt} {ts : List Token} (h : ExprStmt s ts) : (statement false s).Derives ts
  | printStmt {keyword semicolon : Token} {e : Expr} {ts : List Token}
      (isPrint : keyword.is .printWord) (h : (Phrase.expression e).Derives ts)
      (ends : semicolon.is .semicolon) :
      (statement false (.print e)).Derives (keyword :: (ts ++ [semicolon]))
  | forStmt {keyword : Token} {initializer : Option Stmt} {condition step : Option Expr}
      {dangling : Bool} {body : Stmt} {cs ts : List Token} (isFor : keyword.is .forWord)
      (clauses : ForClauses (initializer, condition, step) cs)
      (h : (statement dangling body).Derives ts) :
      (statement dangling (preceded
        (.loop (condition.getD (.literal (.bool true))) (stepped body step)) initializer)).Derives
        (keyword :: (cs ++ ts))
  | whileStmt {keyword : Token} {e : Expr} {dangling : Bool} {body : Stmt} {cs ts : List Token}
      (isWhile : keyword.is .whileWord) (condition : Condition e cs)
      (h : (statement dangling body).Derives ts) :
      (statement dangling (.loop e body)).Derives (keyword :: (cs ++ ts))
  | ifStmt {keyword : Token} {e : Expr} {dangling : Bool} {body : Stmt} {cs ts : List Token}
      (isIf : keyword.is .ifWord) (condition : Condition e cs)
      (h : (statement dangling body).Derives ts) :
      (statement true (.cond e body none)).Derives (keyword :: (cs ++ ts))
  | ifElse {keyword separator : Token} {e : Expr} {dangling : Bool} {thenBranch elseBranch : Stmt}
      {cs ts us : List Token} (isIf : keyword.is .ifWord) (condition : Condition e cs)
      (first : (statement false thenBranch).Derives ts) (isElse : separator.is .elseWord)
      (second : (statement dangling elseBranch).Derives us) :
      (statement dangling (.cond e thenBranch (some elseBranch))).Derives
        (keyword :: (cs ++ (ts ++ separator :: us)))
  | block {left right : Token} {ss : List Stmt} {ts : List Token} (isOpen : left.is .leftBrace)
      (body : (declarations ss).Derives ts) (isClose : right.is .rightBrace) :
      (statement false (.block ss)).Derives (left :: (ts ++ [right]))
  | returnStmt {keyword semicolon : Token} {value : Option Expr} {ts : List Token}
      (isReturn : keyword.is .returnWord) (h : Perhaps value ts) (ends : semicolon.is .semicolon) :
      (statement false (.ret keyword value)).Derives (keyword :: (ts ++ [semicolon]))
  -- declaration*
  | noDeclarations : (declarations []).Derives []
  | declarations {s : Stmt} {ss : List Stmt} {ts us : List Token}
      (first : (declaration s).Derives ts) (more : (declarations ss).Derives us) :
      (declarations (s :: ss)).Derives (ts ++ us)
  -- member*, where member → "static"? function
  | noMembers : (members [] []).Derives []
  | method {d : FunctionDecl} {methods statics : List FunctionDecl} {ts us : List Token}
      (first : (function d).Derives ts) (more : (members methods statics).Derives us) :
      (members (d :: methods) statics).Derives (ts ++ us)
  | staticMethod {keyword : Token} {d : FunctionDecl} {methods statics : List FunctionDecl}
      {ts us : List Token} (isStatic : keyword.is .staticWord) (first : (function d).Derives ts)
      (more : (members methods statics).Derives us) :
      (members methods (d :: statics)).Derives (keyword :: (ts ++ us))
  -- function → IDENT "(" parameters? ")" block
  | function {name left right leftBrace rightBrace : Token} {params : List Token} {ss : List Stmt}
      {ps ts : List Token} (isName : name.is .identifier) (isOpen : left.is .leftParen)
      (parameters : ParametersOrNone params ps) (few : params.length ≤ 255)
      (isClose : right.is .rightParen) (isOpenBrace : leftBrace.is .leftBrace)
      (body : (declarations ss).Derives ts) (isCloseBrace : rightBrace.is .rightBrace) :
      (function ⟨name, params, ss⟩).Derives
        (name :: left :: (ps ++ right :: leftBrace :: (ts ++ [rightBrace])))

-- program → declaration* EOF
inductive Program : List Stmt → List Token → Prop where
  | mk {ss : List Stmt} {ts : List Token} {eof : Token}
      (h : (Sentence.declarations ss).Derives ts) (isEof : eof.is .endOfSource) :
      Program ss (ts ++ [eof])

end Grammar

end ClassScript
