import ClassScript.Lexical.Token

/-! Syntax trees. The nodes that name a binding carry an identity, by which scope analysis refers to
them. -/
namespace ClassScript

inductive Literal where
  | number (value : Float)
  | string (text : String)
  | bool (value : Bool)
  | null

inductive Expr where
  | literal (value : Literal)
  | var (id : Nat) (name : Token)
  | assign (id : Nat) (name : Token) (value : Expr)
  | binary (left : Expr) (operator : Token) (right : Expr)
  | unary (operator : Token) (operand : Expr)
  /-- An operator that may leave its right operand alone. -/
  | logical (left : Expr) (operator : Token) (right : Expr)
  | group (inner : Expr)
  /-- A call, with its closing parenthesis. -/
  | call (callee : Expr) (paren : Token) (arguments : List Expr)
  | property (object : Expr) (name : Token)
  | setProperty (object : Expr) (name : Token) (value : Expr)
  | thisRef (id : Nat) (keyword : Token)
  | superMethod (id : Nat) (keyword : Token) (method : Token)

mutual
inductive Stmt where
  | expr (e : Expr)
  | print (e : Expr)
  | letDecl (name : Token) (initializer : Option Expr)
  | constDecl (name : Token) (initializer : Expr)
  | block (body : List Stmt)
  | cond (condition : Expr) (thenBranch : Stmt) (elseBranch : Option Stmt)
  | loop (condition : Expr) (body : Stmt)
  | function (declaration : FunctionDecl)
  | ret (keyword : Token) (value : Option Expr)
  | classDecl (name : Token) (superclass : Option Expr) (methods statics : List FunctionDecl)

/-- A function, a method or a static method. -/
structure FunctionDecl where
  name : Token
  params : List Token
  body : List Stmt
end

/-- The name under which a class has its constructor. -/
def constructorName : String := "constructor"

namespace Literal

/-- Literals of equal value; numbers compare as numbers. -/
def alike : Literal → Literal → Bool
  | number a, number b => a == b
  | string a, string b => a == b
  | bool a, bool b => a == b
  | null, null => true
  | _, _ => false

end Literal

namespace Expr

/-- The line that stands for an expression in messages. A literal has none. -/
def line : Expr → Nat
  | literal _ => 0
  | var _ name | assign _ name _ | property _ name | setProperty _ name _ => name.line
  | binary _ operator _ | unary operator _ | logical _ operator _ => operator.line
  | group inner => inner.line
  | call _ paren _ => paren.line
  | thisRef _ keyword | superMethod _ keyword _ => keyword.line

mutual
/-- Expressions of the same shape with equal identities and alike tokens. -/
def alike : Expr → Expr → Bool
  | literal a, literal b => a.alike b
  | var i a, var j b => i == j && a.alike b
  | assign i a x, assign j b y => i == j && a.alike b && x.alike y
  | binary l a r, binary l' b r' => l.alike l' && a.alike b && r.alike r'
  | unary a x, unary b y => a.alike b && x.alike y
  | logical l a r, logical l' b r' => l.alike l' && a.alike b && r.alike r'
  | group x, group y => x.alike y
  | call f a xs, call g b ys => f.alike g && a.alike b && alikeAll xs ys
  | property x a, property y b => x.alike y && a.alike b
  | setProperty x a v, setProperty y b w => x.alike y && a.alike b && v.alike w
  | thisRef i a, thisRef j b => i == j && a.alike b
  | superMethod i a m, superMethod j b n => i == j && a.alike b && m.alike n
  | _, _ => false

def alikeAll : List Expr → List Expr → Bool
  | [], [] => true
  | x :: xs, y :: ys => x.alike y && alikeAll xs ys
  | _, _ => false
end

def alikeOption : Option Expr → Option Expr → Bool
  | none, none => true
  | some x, some y => x.alike y
  | _, _ => false

end Expr

def Token.alikeAll (ts us : List Token) : Bool :=
  ts.length == us.length && (ts.zip us).all fun (t, u) => t.alike u

mutual
/-- Statements of the same shape with equal identities and alike tokens. -/
def Stmt.alike : Stmt → Stmt → Bool
  | .expr a, .expr b => a.alike b
  | .print a, .print b => a.alike b
  | .letDecl a x, .letDecl b y => a.alike b && Expr.alikeOption x y
  | .constDecl a x, .constDecl b y => a.alike b && x.alike y
  | .block xs, .block ys => Stmt.alikeAll xs ys
  | .cond c t e, .cond c' t' e' => c.alike c' && t.alike t' && Stmt.alikeOption e e'
  | .loop c b, .loop c' b' => c.alike c' && b.alike b'
  | .function d, .function d' => d.alike d'
  | .ret a x, .ret b y => a.alike b && Expr.alikeOption x y
  | .classDecl a s m t, .classDecl b s' m' t' =>
    a.alike b && Expr.alikeOption s s' && FunctionDecl.alikeAll m m' && FunctionDecl.alikeAll t t'
  | _, _ => false

def Stmt.alikeAll : List Stmt → List Stmt → Bool
  | [], [] => true
  | x :: xs, y :: ys => x.alike y && Stmt.alikeAll xs ys
  | _, _ => false

def Stmt.alikeOption : Option Stmt → Option Stmt → Bool
  | none, none => true
  | some x, some y => x.alike y
  | _, _ => false

def FunctionDecl.alike : FunctionDecl → FunctionDecl → Bool
  | ⟨a, ps, b⟩, ⟨a', ps', b'⟩ => a.alike a' && Token.alikeAll ps ps' && Stmt.alikeAll b b'

def FunctionDecl.alikeAll : List FunctionDecl → List FunctionDecl → Bool
  | [], [] => true
  | x :: xs, y :: ys => x.alike y && FunctionDecl.alikeAll xs ys
  | _, _ => false
end

/-- The number of parameters. -/
def FunctionDecl.arity (d : FunctionDecl) : Nat := d.params.length

namespace Stmt

/-- The loop with an optional initializer, condition and step. It is built from `loop` and blocks:
the step runs after the body in a block of the two, and the initializer opens a block around the
loop. -/
def forLoop (initializer : Option Stmt) (condition step : Option Expr) (body : Stmt) : Stmt :=
  let body := match step with
    | some step => block [body, expr step]
    | none => body
  let loop := loop (condition.getD (.literal (.bool true))) body
  match initializer with
  | some initializer => block [initializer, loop]
  | none => loop

end Stmt

end ClassScript
