import ClassScript.Proofs.Machine.Frame

/-! The operations of a machine: expressions, statements, blocks in a scope of one's choice, calls
and whole programs. However an operation ends, the machine comes back to the scope where it was. -/
namespace ClassScript

namespace Machine

/-- What can be asked of a machine from outside. -/
inductive Operation where
  | evaluate (e : Expr)
  | execute (s : Stmt)
  | block (scope : ScopeId) (body : List Stmt)
  | call (callee : Value) (arguments : List Value)
  | interpret (program : List Stmt)

namespace Operation

@[reducible]
def Result : Operation → Type
  | evaluate _ | call _ _ => Value
  | execute _ | block _ _ => Signal
  | interpret _ => Unit

def perform (depth : Nat) : (o : Operation) → Run o.Result
  | evaluate e => Machine.evaluate depth e
  | execute s => Machine.execute depth s
  | block scope body => within scope (executeAll depth body)
  | call callee arguments => apply depth callee arguments
  | interpret program => Machine.interpret depth program

theorem perform_keeps (depth : Nat) (o : Operation) :
    Leads (Keeps fun _ _ => True) (o.perform depth) := by
  have task (t : Task) : Leads (Keeps fun _ _ => True) (Machine.perform depth t) :=
    (perform_frame depth t).imp fun _ _ h => Keeps.mono h fun _ _ _ _ => trivial
  cases o with
  | evaluate e => exact task (.expr e)
  | execute s => exact task (.stmt s)
  | block scope body =>
    exact (within_keeps (perform_frame depth (.stmts body))).imp fun _ _ h =>
      h.mono fun _ _ _ _ => trivial
  | call callee arguments => exact task (.apply callee arguments)
  | interpret program =>
    have body : Leads (Keeps fun _ _ => True) (executeProgram depth program) :=
      (task (.stmts program)).bind fun _ => Leads.pure _
    rw [perform, interpret_eq]
    exact body.bind fun _ => (onSink_unchanged Sink.flush).imp fun _ _ => Unchanged.keeps

end Operation

/-- The machine is in the scope where it was, the globals are where they always are, and each place
stands for the scope that it stood for. References have the distances that they had. -/
structure Restored (m m' : Machine) : Prop where
  current : m'.current = m.current
  places : m.scopes.Steady (fun _ _ => True) m'.scopes
  resolution : m'.resolution = m.resolution

/-- An operation that completes, returns or fails at any depth of calls leaves the machine in the
scope that it found it in. -/
theorem scope_restored (depth : Nat) (o : Operation) : Leads Restored (o.perform depth) :=
  (o.perform_keeps depth).imp fun _ _ h => ⟨h.current, h.steady, h.resolution⟩

end Machine

end ClassScript
