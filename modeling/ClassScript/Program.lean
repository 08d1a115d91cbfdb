import ClassScript.Lexical.Item
import ClassScript.Machine.Evaluation
import ClassScript.Scoping.Analysis
import ClassScript.Syntax.OfTokens

/-! From a source to a run, in four phases: tokens, syntax, scopes, execution. A phase that finds
errors reports all it finds, and none that follows takes place. -/
namespace ClassScript

/-- An error of any phase. -/
inductive Diagnostic where
  | lexical (cause : LexFault) (line : Nat)
  | syntactic (e : SyntaxError)
  | static (e : StaticError)
  | runtime (e : RuntimeError)
  deriving DecidableEq, Repr

/-- A message with the line it belongs to. -/
def located (line : Nat) (message : String) : String := "[line " ++ line.repr ++ "] " ++ message

def RuntimeError.message : RuntimeError → String
  | fault cause line => located line ("Runtime error: " ++ cause.message)
  | output cause => "Runtime error: failed to write program output: " ++ cause.message

namespace Diagnostic

def message : Diagnostic → String
  | lexical cause line => located line ("Error: " ++ cause.message)
  | syntactic e => located e.line ("Error: " ++ e.cause.message)
  | static e => located e.line ("Error: " ++ e.cause.message)
  | runtime e => e.message

def isRuntime : Diagnostic → Bool
  | runtime _ => true
  | _ => false

end Diagnostic

/-- The tokens of a source. -/
def scan (source : List UInt8) : Except (List Diagnostic) (List Token) :=
  (tokens source).mapError fun faults => faults.map fun (cause, line) => .lexical cause line

/-- The statements of a source. -/
def parse (source : List UInt8) : Except (List Diagnostic) (List Stmt) := do
  (Stmt.ofTokens (← scan source)).mapError fun errors => errors.map .syntactic

/-- The expression that a source is. -/
def parseExpression (source : List UInt8) : Except (List Diagnostic) Expr := do
  (Expr.ofTokens (← scan source)).mapError fun error => [.syntactic error]

namespace Machine

/-- Analyses a program and keeps the distances of its references. -/
def analyze (program : List Stmt) (m : Machine) : List StaticError × Machine :=
  let (errors, resolution) := Scoping.analyze m.resolution program
  (errors, { m with resolution })

/-- How a run ends. -/
inductive Ending where
  | finished
  | failed (diagnostics : List Diagnostic)
  /-- The program nests deeper than the run may. -/
  | tooDeep

/-- Runs a source. -/
def run (depth : Nat) (source : List UInt8) (m : Machine) : Ending × Machine :=
  match parse source with
  | .error diagnostics => (.failed diagnostics, m)
  | .ok program =>
    match m.analyze program with
    | ([], m) =>
      match interpret depth program m with
      | .ok _ m => (.finished, m)
      | .error (.error e) m => (.failed [.runtime e], m)
      | .error .tooDeep m => (.tooDeep, m)
    | (errors, m) => (.failed (errors.map .static), m)

/-- A depth that no run reaches in practice. -/
def ampleDepth : Nat := Nat.pow 2 62

end Machine

end ClassScript
