import ClassScript.Syntax.Rules

/-! Trees whose identities are raised. What a rule reads depends on the identity that it begins with
in no other way, so here are the trees on both sides of that. -/
namespace ClassScript

mutual
/-- The same expression with every identity raised by `k`. -/
def Expr.raised (k : Nat) : Expr → Expr
  | .literal value => .literal value
  | .var id name => .var (id + k) name
  | .assign id name value => .assign (id + k) name (value.raised k)
  | .binary left operator right => .binary (left.raised k) operator (right.raised k)
  | .unary operator operand => .unary operator (operand.raised k)
  | .logical left operator right => .logical (left.raised k) operator (right.raised k)
  | .group inner => .group (inner.raised k)
  | .call callee paren arguments => .call (callee.raised k) paren (Expr.raisedAll k arguments)
  | .property object name => .property (object.raised k) name
  | .setProperty object name value => .setProperty (object.raised k) name (value.raised k)
  | .thisRef id keyword => .thisRef (id + k) keyword
  | .superMethod id keyword method => .superMethod (id + k) keyword method

def Expr.raisedAll (k : Nat) : List Expr → List Expr
  | [] => []
  | e :: es => e.raised k :: Expr.raisedAll k es
end

mutual
/-- The same statement with every identity raised by `k`. -/
def Stmt.raised (k : Nat) : Stmt → Stmt
  | .expr e => .expr (e.raised k)
  | .print e => .print (e.raised k)
  | .letDecl name initializer => .letDecl name (initializer.map (Expr.raised k))
  | .constDecl name initializer => .constDecl name (initializer.raised k)
  | .block body => .block (Stmt.raisedAll k body)
  | .cond condition thenBranch elseBranch =>
    .cond (condition.raised k) (thenBranch.raised k) (Stmt.raisedOption k elseBranch)
  | .loop condition body => .loop (condition.raised k) (body.raised k)
  | .function declaration => .function (declaration.raised k)
  | .ret keyword value => .ret keyword (value.map (Expr.raised k))
  | .classDecl name superclass methods statics =>
    .classDecl name (superclass.map (Expr.raised k)) (FunctionDecl.raisedAll k methods)
      (FunctionDecl.raisedAll k statics)

def Stmt.raisedAll (k : Nat) : List Stmt → List Stmt
  | [] => []
  | s :: ss => s.raised k :: Stmt.raisedAll k ss

def Stmt.raisedOption (k : Nat) : Option Stmt → Option Stmt
  | none => none
  | some s => some (s.raised k)

def FunctionDecl.raised (k : Nat) : FunctionDecl → FunctionDecl
  | ⟨name, params, body⟩ => ⟨name, params, Stmt.raisedAll k body⟩

def FunctionDecl.raisedAll (k : Nat) : List FunctionDecl → List FunctionDecl
  | [] => []
  | d :: ds => d.raised k :: FunctionDecl.raisedAll k ds
end

mutual

theorem Expr.raised_zero : (e : Expr) → e.raised 0 = e
  | .literal _ | .var _ _ | .thisRef _ _ | .superMethod _ _ _ => rfl
  | .assign _ _ value => by rw [raised, raised_zero value, Nat.add_zero]
  | .binary left _ right | .logical left _ right =>
    by rw [raised, raised_zero left, raised_zero right]
  | .unary _ operand => by rw [raised, raised_zero operand]
  | .group inner => by rw [raised, raised_zero inner]
  | .call callee _ arguments => by rw [raised, raised_zero callee, raisedAll_zero arguments]
  | .property object _ => by rw [raised, raised_zero object]
  | .setProperty object _ value => by rw [raised, raised_zero object, raised_zero value]

theorem Expr.raisedAll_zero : (es : List Expr) → Expr.raisedAll 0 es = es
  | [] => rfl
  | e :: es => by rw [raisedAll, Expr.raised_zero e, raisedAll_zero es]

end

theorem Expr.map_raised_zero (e : Option Expr) : e.map (Expr.raised 0) = e := by
  cases e with
  | none => rfl
  | some e => exact congrArg some e.raised_zero

mutual

theorem Stmt.raised_zero : (s : Stmt) → s.raised 0 = s
  | .expr e | .print e => by rw [Stmt.raised, e.raised_zero]
  | .letDecl _ initializer => by rw [Stmt.raised, Expr.map_raised_zero]
  | .constDecl _ initializer => by rw [Stmt.raised, initializer.raised_zero]
  | .block body => by rw [Stmt.raised, Stmt.raisedAll_zero body]
  | .cond condition thenBranch elseBranch => by
    rw [Stmt.raised, condition.raised_zero, Stmt.raised_zero thenBranch,
      Stmt.raisedOption_zero elseBranch]
  | .loop condition body => by rw [Stmt.raised, condition.raised_zero, Stmt.raised_zero body]
  | .function declaration => by rw [Stmt.raised, FunctionDecl.raised_zero declaration]
  | .ret _ value => by rw [Stmt.raised, Expr.map_raised_zero]
  | .classDecl _ superclass methods statics => by
    rw [Stmt.raised, Expr.map_raised_zero, FunctionDecl.raisedAll_zero methods,
      FunctionDecl.raisedAll_zero statics]

theorem Stmt.raisedAll_zero : (ss : List Stmt) → Stmt.raisedAll 0 ss = ss
  | [] => rfl
  | s :: ss => by rw [Stmt.raisedAll, Stmt.raised_zero s, Stmt.raisedAll_zero ss]

theorem Stmt.raisedOption_zero : (s : Option Stmt) → Stmt.raisedOption 0 s = s
  | none => rfl
  | some s => by rw [Stmt.raisedOption, Stmt.raised_zero s]

theorem FunctionDecl.raised_zero : (d : FunctionDecl) → d.raised 0 = d
  | ⟨_, _, body⟩ => by rw [FunctionDecl.raised, Stmt.raisedAll_zero body]

theorem FunctionDecl.raisedAll_zero : (ds : List FunctionDecl) → FunctionDecl.raisedAll 0 ds = ds
  | [] => rfl
  | d :: ds => by
    rw [FunctionDecl.raisedAll, FunctionDecl.raised_zero d, FunctionDecl.raisedAll_zero ds]

end

theorem Stmt.raised_forLoop (k : Nat) (initializer : Option Stmt) (condition step : Option Expr)
    (body : Stmt) : (Stmt.forLoop initializer condition step body).raised k =
      .forLoop (Stmt.raisedOption k initializer) (condition.map (Expr.raised k))
        (step.map (Expr.raised k)) (body.raised k) := by
  cases initializer <;> cases condition <;> cases step <;>
    simp [Stmt.forLoop, Stmt.raised, Stmt.raisedAll, Stmt.raisedOption, Expr.raised]

/-- An assignment of raised trees is raised itself, and so is the identity behind it. -/
theorem Expr.assigned?_raised (k : Nat) (target value : Expr) (n : Nat) :
    (target.raised k).assigned? (value.raised k) (n + k) =
      (target.assigned? value n).map fun (e, next) => (e.raised k, next + k) := by
  cases target <;> simp [Expr.assigned?, Expr.raised, Nat.add_right_comm]

/-- The node of a level raises identities in its operands alone. -/
def Level.Raises (level : Level) : Prop :=
  ∀ k left operator right, (level.node left operator right).raised k =
    level.node (left.raised k) operator (right.raised k)

theorem levels_raise : ∀ level ∈ levels, level.Raises := by
  intro level hl k left operator right
  simp only [levels, List.mem_cons, List.not_mem_nil, or_false] at hl
  rcases hl with rfl | rfl | rfl | rfl | rfl | rfl | rfl <;> simp [Expr.raised]

end ClassScript
