import ClassScript.Syntax.Tree

/-! The references of a tree: the nodes that name a binding, in the order in which a reader meets
them. The target of an assignment comes after the assigned value. -/
namespace ClassScript

/-- A node that names a binding. -/
structure Reference where
  name : String
  id : Nat
  line : Nat
  deriving DecidableEq, Repr

mutual
def Expr.references : Expr → List Reference
  | .literal _ => []
  | .var id name => [⟨name.lexeme, id, name.line⟩]
  | .assign id name value => value.references ++ [⟨name.lexeme, id, name.line⟩]
  | .binary left _ right => left.references ++ right.references
  | .unary _ operand => operand.references
  | .logical left _ right => left.references ++ right.references
  | .group inner => inner.references
  | .call callee _ arguments => callee.references ++ Expr.referencesAll arguments
  | .property object _ => object.references
  | .setProperty object _ value => object.references ++ value.references
  | .thisRef id keyword => [⟨"this", id, keyword.line⟩]
  | .superMethod id keyword _ => [⟨"super", id, keyword.line⟩]

def Expr.referencesAll : List Expr → List Reference
  | [] => []
  | e :: es => e.references ++ Expr.referencesAll es
end

def Expr.referencesOption : Option Expr → List Reference
  | none => []
  | some e => e.references

mutual
def Stmt.references : Stmt → List Reference
  | .expr e => e.references
  | .print e => e.references
  | .letDecl _ initializer => Expr.referencesOption initializer
  | .constDecl _ initializer => initializer.references
  | .block body => Stmt.referencesAll body
  | .cond condition thenBranch elseBranch =>
    condition.references ++ thenBranch.references ++ Stmt.referencesOption elseBranch
  | .loop condition body => condition.references ++ body.references
  | .function declaration => declaration.references
  | .ret _ value => Expr.referencesOption value
  | .classDecl _ superclass methods statics =>
    Expr.referencesOption superclass ++ FunctionDecl.referencesAll methods
      ++ FunctionDecl.referencesAll statics

def Stmt.referencesAll : List Stmt → List Reference
  | [] => []
  | s :: ss => s.references ++ Stmt.referencesAll ss

def Stmt.referencesOption : Option Stmt → List Reference
  | none => []
  | some s => s.references

def FunctionDecl.references : FunctionDecl → List Reference
  | ⟨_, _, body⟩ => Stmt.referencesAll body

def FunctionDecl.referencesAll : List FunctionDecl → List Reference
  | [] => []
  | d :: ds => d.references ++ FunctionDecl.referencesAll ds
end

end ClassScript
