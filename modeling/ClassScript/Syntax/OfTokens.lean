import ClassScript.Syntax.Rules

/-! Reading whole programs and whole expressions from a list of tokens. The list ends at its first
end-of-source token; without one it ends on the line of its last token. -/
namespace ClassScript

/-- The tokens in front of the end of the source. -/
def beforeEnd (ts : List Token) : List Token := ts.takeWhile fun t => !t.is .endOfSource

/-- The line of the end of the source. -/
def endLine (ts : List Token) : Nat :=
  match ts.find? (·.is .endOfSource) with
  | some t => t.line
  | none => (ts.getLast?.map Token.line).getD 1

/-- What a list of tokens says as a program: its statements, and the errors of those that cannot be
read. -/
structure Listing where
  statements : List Stmt
  errors : List SyntaxError
  nextId : Nat

/-- Reads declarations to the end; one that fails does not stop the reading. -/
def Listing.read (endLine nextId : Nat) (ts : List Token) : Listing :=
  match ts with
  | [] => ⟨[], [], nextId⟩
  | t :: rest =>
    match declaration endLine nextId (t :: rest) with
    | .done s nextId more _ =>
      let listing := read endLine nextId more
      { listing with statements := s :: listing.statements }
    | .failed error more _ =>
      let listing := read endLine nextId (synchronize more)
      { listing with errors := error :: listing.errors }
termination_by ts.length
decreasing_by
  · assumption
  · cases more with
    | nil => simp [synchronize]
    | cons u more => have := synchronize_length_lt u more; omega

def Listing.ofTokens (ts : List Token) : Listing := .read (endLine ts) 0 (beforeEnd ts)

/-- The program, or all errors if there are any. -/
def Stmt.ofTokens (ts : List Token) : Except (List SyntaxError) (List Stmt) :=
  let listing := Listing.ofTokens ts
  match listing.errors with
  | [] => .ok listing.statements
  | errors => .error errors

/-- The expression that takes up all tokens. -/
def Expr.ofTokens (ts : List Token) : Except SyntaxError Expr :=
  match expression (endLine ts) 0 (beforeEnd ts) with
  | .done e _ [] _ => .ok e
  | .done _ _ (t :: _) _ => .error ⟨.surplus, t.line⟩
  | .failed error _ _ => .error error

end ClassScript
