import ClassScript.Proofs.Machine.Accounted
import ClassScript.Proofs.Machine.Operations

/-! What operations keep of the store of scopes, in whatever order they come and however they
end. -/
namespace ClassScript

/-- The value has nothing but scopes of the store. -/
def Value.Fits (t : Scopes) : Value → Prop
  | function _ code => code.scope < t.all.size
  | classRef c | object _ c => ∀ body ∈ c.chain, ∀ entry ∈ body.methods ++ body.statics,
    entry.2.scope < t.all.size
  | null | bool _ | number _ | string _ => True

namespace Machine

variable {m m' m₁ m₂ : Machine} {sink : Sink}

/-- Every routine was made in a scope that there is. -/
def Account.placed : Account where
  covers _ := True
  made e code := code.scope < e.scopes.all.size
  family e chain := ∀ body ∈ chain, ∀ entry ∈ body.methods ++ body.statics,
    entry.2.scope < e.scopes.all.size

theorem Account.placed_knows {e : Extent} {v : Value} : placed.Knows e v ↔ v.Fits e.scopes := by
  cases v <;> exact Iff.rfl

theorem Account.placed_declared {e : Extent} {id n : Nat} {name : String} {scope : ScopeId}
    {methods statics : List FunctionDecl} {ancestors : List ClassBody}
    (hs : scope < e.scopes.all.size) (ha : placed.family e ancestors) :
    placed.family { e with identities := n }
      (⟨id, name, .ofDeclarations scope methods, .ofDeclarations scope statics⟩ :: ancestors) := by
  refine List.forall_mem_cons.mpr ⟨?_, ha⟩
  intro entry he
  have made : entry.2.scope = scope := by
    rcases List.mem_append.mp he with he | he <;>
      obtain ⟨declaration, -, rfl⟩ := List.mem_map.mp (List.mem_reverse.mp he) <;> rfl
  exact made ▸ hs

theorem Account.placed_bound (e : Extent) (found : FoundMethod) (receiver : Value) :
    placed.made (e.bound found receiver) ⟨found.method.declaration, e.scopes.all.size⟩ :=
  Nat.lt_of_lt_of_eq (Nat.lt_succ_self _) (e.scopes.size_bound found receiver).symm

theorem Account.placed_lawful : placed.Lawful where
  made_mono hl h := Nat.lt_of_lt_of_le h hl.scopes.size
  family_mono hl h := fun body hb entry he => Nat.lt_of_lt_of_le (h body hb entry he) hl.scopes.size
  made_scope h := h
  method_scope h hl := h _ List.mem_cons_self (_, _) (ClassBody.mem_of_lookup hl)
  noClass := nofun
  superclass h := (List.forall_mem_cons.mp h).2
  function h := h.holds.current
  declared h hl ha _ := placed_declared (Nat.lt_of_lt_of_le h.holds.current hl.scopes.size) ha
  bound _ _ _ _ _ _ := placed_bound _ _ _
  calls _ _ _ _ := trivial

namespace Operation

/-- What the operation is given is of this machine. -/
def Fits (m : Machine) : Operation → Prop
  | block scope _ => scope < m.scopes.all.size
  | call callee arguments => callee.Fits m.scopes ∧ ∀ v ∈ arguments, v.Fits m.scopes
  | evaluate _ | execute _ | interpret _ => True

/-- So is what it answers. -/
def Answers (t : Scopes) : (o : Operation) → o.Result → Prop
  | evaluate _, v | call _ _, v => v.Fits t
  | execute _, signal | block _ _, signal => ∀ v, signal = .returned v → v.Fits t
  | interpret _, _ => True

theorem perform_ends (depth : Nat) {o : Operation} (hm : Account.placed.Holds m) (hf : o.Fits m) :
    Account.placed.Ends (fun e answer => o.Answers e.scopes answer) (o.perform depth m) := by
  have task (t : Task) (m : Machine) (hm : Account.placed.Holds m)
      (hg : Account.placed.Given m.extent t) :
      Account.placed.Ends (fun e v => Account.placed.Gives e t v)
        (Machine.perform depth t m) :=
    Account.placed_lawful.sound depth t m ⟨trivial, hm, hg⟩
  have signal (e : Extent) (s : Signal) (h : Account.placed.KnowsSignal e s) :
      ∀ v, s = .returned v → v.Fits e.scopes := by
    rintro v rfl
    exact Account.placed_knows.mp h
  cases o with
  | evaluate e => exact (task (.expr e) m hm trivial).imp fun _ _ => Account.placed_knows.mp
  | execute s => exact (task (.stmt s) m hm trivial).imp signal
  | block scope body =>
    have inside := task (.stmts body) _ (hm.enter hf) trivial
    exact (Account.within_ends hm (perform_frame depth (.stmts body)) inside).imp signal
  | call callee arguments =>
    have given : Account.placed.Given m.extent (.apply callee arguments) :=
      ⟨Account.placed_knows.mpr hf.1, fun v hv => Account.placed_knows.mpr (hf.2 v hv)⟩
    exact (task (.apply callee arguments) m hm given).imp fun _ _ => Account.placed_knows.mp
  | interpret program =>
    have body : Account.placed.Ends (fun _ _ => True) (executeProgram depth program m) :=
      (task (.stmts program) m hm trivial).bind fun _ _ _ h _ => .pure h trivial
    rw [perform, interpret_eq]
    exact body.bind fun _ _ _ h _ => Account.onSink_ends h _

end Operation

/-- One thing that may be done with a machine: an operation, which may fail; a name for the globals;
or distances for references, as analysis notes them. -/
inductive Operates (m : Machine) : Machine → Prop
  | performed (depth : Nat) (o : Operation) (fits : o.Fits m) :
    Operates m (ending (o.perform depth m))
  | defined (name : String) (value : Value) (constant : Bool) (line : Nat)
    (fits : value.Fits m.scopes) :
    Operates m (ending (onScopes line (Scopes.define globals name value constant) m))
  | noted (resolution : Resolution) : Operates m { m with resolution }

/-- Nothing that is done with a machine leaves it with a value of other scopes. -/
theorem Operates.placed (h : Operates m m') (hm : Account.placed.Holds m) :
    Account.placed.Holds m' := by
  cases h with
  | performed depth o fits => exact (Operation.perform_ends depth hm fits).holds
  | defined name value constant line fits =>
    have globals : globals < m.scopes.all.size := Nat.zero_lt_of_lt hm.current
    exact (Account.onScopes_ends (hm.define Account.placed_lawful globals
      (Account.placed_knows.mpr fits) constant)).holds
  | noted => exact hm.same rfl rfl rfl rfl

theorem Operates.steady (h : Operates m m') : m.scopes.Steady (fun _ _ => True) m'.scopes := by
  cases h with
  | performed depth o => exact (o.perform_keeps depth m).steady
  | defined => exact (onScopes_keeps (Scopes.Steady.define trivial) m).steady
  | noted => exact refl_of (Scopes.Steady _) _

open Relation (ReflTransGen)

theorem placed_of_operates (hm : Account.placed.Holds m) (h : ReflTransGen Operates m m') :
    Account.placed.Holds m' := by
  induction h with
  | refl => exact hm
  | tail _ h ih => exact h.placed ih

theorem steady_of_operates (h : ReflTransGen Operates m m') :
    m.scopes.Steady (fun _ _ => True) m'.scopes := by
  induction h with
  | refl => exact refl_of (Scopes.Steady _) _
  | tail _ h ih => exact trans_of (Scopes.Steady _) ih h.steady

/-- Whatever has been done with a machine, no scope of it has a name both as a variable and as a
constant and none lies around itself. Whatever is done next, each scope keeps the scope around it,
its variables as variables, and its constants as constants with their values. -/
theorem store_kept (h : ReflTransGen Operates (fresh sink) m) (hn : ReflTransGen Operates m m') :
    m.scopes.Exclusive ∧ m.scopes.Acyclic ∧ m.scopes.Continues m'.scopes := by
  have placed := placed_of_operates (Account.placed.fresh_holds sink) h
  exact ⟨placed.scopes.exclusive, placed.scopes.acyclic,
    (steady_of_operates hn).continues placed.scopes⟩

namespace Constant

def name : Token := ⟨.symbol .identifier, "a", 1⟩

def declaration : Stmt := .constDecl name (.literal (.bool true))

def assignment : Stmt := .expr (.assign 0 name (.literal .null))

def declared : Machine := ending (execute 5 declaration (fresh .unlimited))

/-- Where the assignment has failed. -/
def assigned : Machine := ending (execute 5 assignment declared)

end Constant

theorem store_kept_by_failure :
    execute 5 Constant.assignment Constant.declared =
        .error (.error (.fault (.constant "a") 1)) Constant.assigned ∧
      ReflTransGen Operates (fresh .unlimited) Constant.declared ∧
      ReflTransGen Operates Constant.declared Constant.assigned ∧
      Constant.declared.scopes.Exclusive ∧ Constant.declared.scopes.Acyclic ∧
      Constant.declared.scopes.Continues Constant.assigned.scopes := by
  have failed : execute 5 Constant.assignment Constant.declared =
      .error (.error (.fault (.constant "a") 1)) Constant.assigned := by
    with_unfolding_all rfl
  have first : ReflTransGen Operates (fresh .unlimited) Constant.declared :=
    .single (.performed 5 (.execute Constant.declaration) trivial)
  have second : ReflTransGen Operates Constant.declared Constant.assigned :=
    .single (.performed 5 (.execute Constant.assignment) trivial)
  exact ⟨failed, first, second, store_kept first second⟩

end Machine

end ClassScript
