import ClassScript.Proofs.Scoping.Accepted
import ClassScript.Proofs.Scoping.Resolving
import ClassScript.Proofs.Scoping.Unique

/-! What a resolver has behind a statement. Whether the statement was resolved, has reported errors
or was given up from deep inside, its name is declared and defined, all other scopes and the kinds
are those from before it, and so only the name whose initializer is being read is ever undefined. -/
namespace ClassScript

namespace Scoping

variable {p q : Progress} {scopes : List Names} {name : String} {context : Context}

section Statements

/-- The scopes are as they were. -/
def Kept (p q : Progress) : Prop := q.scopes = p.scopes

instance : IsPreorder Progress Kept where
  refl _ := rfl
  trans _ _ _ h₁ h₂ := h₂.trans h₁

theorem Kept.of_notes {is : List Nat} {w : Walk Unit} (h : Leads (Notes is) w) : Leads Kept w :=
  h.imp fun _ _ h => h.scopes

theorem inScope_kept (names : Names) (w : Walk Unit) : Leads Kept (inScope names w) := by
  intro p
  simp only [inScope]
  cases w { p with scopes := names :: p.scopes } <;> rfl

theorem walkRoutine_kept (context : Context) (d : FunctionDecl) :
    Leads Kept (walkRoutine context d) := by
  obtain ⟨name, parameters, body⟩ := d
  rw [walkRoutine]
  exact inScope_kept _ _

theorem walkMethods_kept (kind : String → BodyKind) (context : Context) (ds : List FunctionDecl) :
    Leads Kept (walkMethods kind context ds) := by
  induction ds with
  | nil =>
    rw [walkMethods]
    exact Leads.pure _
  | cons d ds ih =>
    rw [walkMethods]
    exact (inScope_kept _ _).bind fun _ => ih

/-- The name is declared and defined in the innermost scope, or it was there before. -/
def Leaves (declares : Option String) (p q : Progress) : Prop :=
  q.scopes = declares.elim p.scopes (declaring p.scopes) ∨
    q.scopes = p.scopes ∧ ∃ name ∈ declares, declared name p.scopes

theorem Leaves.of_kept {w : Walk Unit} (h : Leads Kept w) : Leads (Leaves none) w :=
  h.imp fun _ _ h => .inl h

/-- A declaration whose name is defined by what is done next. -/
theorem declare_leaves (name : Token) {w : Walk Unit}
    (hw : ∀ q, (ending (w q)).scopes = marked name.lexeme true q.scopes) :
    Leads (Leaves (some name.lexeme)) (declare name >>= fun _ => w) := by
  intro p
  by_cases hd : declared name.lexeme p.scopes
  · rw [bind_of_error ((declare_eq name p).trans (if_pos hd))]
    exact .inr ⟨rfl, name.lexeme, rfl, hd⟩
  · rw [bind_of_ok ((declare_eq name p).trans (if_neg hd))]
    exact .inl (hw _)

theorem thenDefine_scopes (name : Token) {w : Walk Unit} (hw : Leads Kept w) (p : Progress) :
    (ending (thenDefine name w p)).scopes = marked name.lexeme true p.scopes := by
  have kept := hw p
  simp only [thenDefine, define]
  cases hx : w p <;> rw [hx] at kept <;> simp only [mark_eq] <;>
    exact congrArg (marked name.lexeme true) kept

theorem define_scopes (name : Token) {w : Walk Unit} (hw : Leads Kept w) (p : Progress) :
    (ending ((define name >>= fun _ => w) p)).scopes = marked name.lexeme true p.scopes := by
  rw [define, bind_of_ok (mark_eq _ _ _)]
  exact hw _

mutual

/-- However the walk of a statement ends, it has defined the name that the statement declares. -/
theorem walkStmt_leaves (context : Context) :
    (s : Stmt) → s.Proper → Leads (Leaves s.declares?) (walkStmt context s)
  | .expr e, _ => by
    rw [walkStmt]
    exact .of_kept (.of_notes (walkExpr_notes context e))
  | .print e, _ => by
    rw [walkStmt]
    exact .of_kept (.of_notes (walkExpr_notes context e))
  | .letDecl name initializer, _ => by
    rw [walkStmt]
    exact declare_leaves name (thenDefine_scopes name
      (.of_notes (walkOption_notes context initializer)))
  | .constDecl name initializer, _ => by
    rw [walkStmt]
    exact declare_leaves name (thenDefine_scopes name
      (.of_notes (walkExpr_notes context initializer)))
  | .block body, _ => by
    rw [walkStmt]
    exact .of_kept (inScope_kept _ _)
  | .cond condition thenBranch elseBranch, h => by
    rw [Stmt.Proper] at h
    obtain ⟨proper, declares, otherwise⟩ := h
    rw [walkStmt]
    exact .of_kept ((Kept.of_notes (walkExpr_notes context condition)).bind fun _ =>
      (walkStmt_kept context thenBranch proper declares).bind fun _ =>
        walkElse_kept context elseBranch otherwise)
  | .loop condition body, h => by
    rw [Stmt.Proper] at h
    rw [walkStmt]
    exact .of_kept ((Kept.of_notes (walkExpr_notes context condition)).bind fun _ =>
      walkStmt_kept context body h.1 h.2)
  | .function declaration, _ => by
    rw [walkStmt]
    exact declare_leaves _ (define_scopes _ (walkRoutine_kept _ declaration))
  | .ret keyword value, _ => by
    rw [walkStmt_ret]
    exact .of_kept ((Kept.of_notes (@checkReturn_notes [] context keyword value)).bind fun _ =>
      .of_notes (walkOption_notes context value))
  | .classDecl name superclass methods statics, _ => by
    rw [walkStmt]
    refine declare_leaves name (define_scopes name ?_)
    exact (Kept.of_notes (@reportSelfInheritance_notes [] name superclass)).bind fun _ =>
      (Kept.of_notes (walkOption_notes _ superclass)).bind fun _ =>
        (walkMethods_kept _ _ methods).bind fun _ => walkMethods_kept _ _ statics

theorem walkStmt_kept (context : Context) (s : Stmt) (proper : s.Proper)
    (declares : s.declared = []) : Leads Kept (walkStmt context s) := by
  have nothing : s.declares? = none := by
    have := Stmt.declared_eq proper
    rw [declares] at this
    cases hd : s.declares? with
    | none => rfl
    | some name => simp [hd] at this
  refine (walkStmt_leaves context s proper).imp fun p q h => ?_
  rw [nothing] at h
  rcases h with h | ⟨h, -⟩
  · exact h
  · exact h

theorem walkElse_kept (context : Context) :
    (s : Option Stmt) → Stmt.ProperElse s → Leads Kept (walkElse context s)
  | none, _ => by
    rw [walkElse]
    exact Leads.pure _
  | some s, h => by
    rw [Stmt.ProperElse] at h
    rw [walkElse]
    exact walkStmt_kept context s h.1 h.2

end

end Statements

/-- What is done by itself comes to its end, with the scopes that it came to. -/
theorem isolated_done (w : Walk Unit) (p : Progress) :
    ∃ q, isolated w p = .ok () q ∧ q.scopes = (ending (w p)).scopes := by
  simp only [isolated]
  cases w p <;> exact ⟨_, rfl, rfl⟩

/-- No name of any scope is being read in its own initializer. -/
def AllSettled (scopes : List Names) : Prop := ∀ names ∈ scopes, Settled names

/-- The name is being read in its own initializer, in the scope at the depth. -/
def Undefined (scopes : List Names) (depth : Nat) (name : String) : Prop :=
  ∃ names, scopes[depth]? = some names ∧ names.lookup name = some false

/-- Where all names are defined, those of the innermost scope are the old ones and the new one. -/
theorem Leaves.lookup {declares : Option String} (h : Leaves declares p q)
    (hs : AllSettled p.scopes) :
    q.scopes.length = p.scopes.length ∧ q.scopes.tail = p.scopes.tail ∧
      ∀ names ∈ p.scopes.head?, ∃ names' ∈ q.scopes.head?, ∀ x,
        names'.lookup x = if declares = some x then some true else names.lookup x := by
  rcases h with h | ⟨h, name, hn, bound⟩
  · cases declares with
    | none =>
      rw [Option.elim_none] at h
      rw [h]
      exact ⟨rfl, rfl, fun names hn => ⟨names, hn, fun x => by simp⟩⟩
    | some name =>
      rw [Option.elim_some] at h
      rw [h]
      cases hp : p.scopes with
      | nil => exact ⟨rfl, rfl, nofun⟩
      | cons names outer =>
        refine ⟨rfl, rfl, ?_⟩
        rintro _ ⟨⟩
        obtain ⟨names', hd, hl⟩ := lookup_declaring names outer [name]
        refine ⟨names', ?_, fun x => ?_⟩
        · rw [List.foldl_cons, List.foldl_nil] at hd
          rw [hd]
          rfl
        · rw [hl]
          simp only [List.mem_singleton, Option.some.injEq, eq_comm]
  · cases hn
    rw [h]
    refine ⟨rfl, rfl, fun names hn => ⟨names, hn, fun x => ?_⟩⟩
    split
    · rename_i same
      cases same
      rw [declared, hn, Option.any_some] at bound
      obtain ⟨defined, hl⟩ := Option.isSome_iff_exists.mp bound
      have settled := hs names (List.mem_of_mem_head? hn) name
      cases defined <;> simp_all
    · rfl

section Sights

variable {program : List Stmt} {r r' : Resolver} {e : Expr}

open Resolver (Step)

/-- The expression is a part of the other one, or the whole of it. -/
def Within (whole part : Expr) : Prop :=
  Relation.ReflTransGen (fun e e' => e' ∈ e.operands) whole part

/-- The resolver takes up parts of the expression, with the scopes that it has. -/
structure Sees (e : Expr) (r r' : Resolver) : Prop where
  scopes : r'.scopes = r.scopes
  seen : ∃ new, r'.seen = r.seen ++ new ∧ ∀ sight ∈ new, sight.scopes = r.scopes ∧
    Within e sight.expression

namespace Sees

instance : IsPreorder Resolver (Sees e) where
  refl r := ⟨rfl, [], by simp, nofun⟩
  trans r₁ r₂ r₃ h₁ h₂ := by
    obtain ⟨same₁, new₁, seen₁, all₁⟩ := h₁
    obtain ⟨same₂, new₂, seen₂, all₂⟩ := h₂
    refine ⟨same₂.trans same₁, new₁ ++ new₂, by rw [seen₂, seen₁, List.append_assoc], ?_⟩
    intro sight hs
    rcases List.mem_append.mp hs with hs | hs
    · exact all₁ sight hs
    · exact ⟨(all₂ sight hs).1.trans same₁, (all₂ sight hs).2⟩

theorem operand {part : Expr} (h : Sees part r r') (hp : part ∈ e.operands) : Sees e r r' := by
  obtain ⟨same, new, seen, all⟩ := h
  exact ⟨same, new, seen, fun sight hs => ⟨(all sight hs).1, .head hp (all sight hs).2⟩⟩

theorem see : Leads (Sees e) (Resolver.see e) := fun r =>
  ⟨rfl, [⟨e, r.scopes⟩], rfl, fun sight hs => by
    cases List.mem_singleton.mp hs
    exact ⟨rfl, .refl⟩⟩

theorem report (error : StaticError) : Leads (Sees e) (Resolver.report error) :=
  fun _ => ⟨rfl, [], (List.append_nil _).symm, nofun⟩

theorem resolveLocal (id : Nat) (name : String) :
    Leads (Sees e) (Resolver.resolveLocal id name) := by
  refine Leads.modify fun r => ?_
  split
  · exact ⟨rfl, [], by simp, nofun⟩
  · exact refl_of (Sees e) r

mutual

theorem resolveExpr : (e : Expr) → Leads (Sees e) (Resolver.resolveExpr e)
  | .literal _ => by
    rw [Resolver.resolveExpr]
    exact see.bind fun _ => Leads.pure _
  | .group inner => by
    rw [Resolver.resolveExpr]
    exact see.bind fun _ => (resolveExpr inner).imp fun _ _ h => h.operand (by simp [Expr.operands])
  | .unary _ operand => by
    rw [Resolver.resolveExpr]
    exact see.bind fun _ => (resolveExpr operand).imp fun _ _ h =>
      h.operand (by simp [Expr.operands])
  | .binary left _ right => by
    rw [Resolver.resolveExpr]
    exact see.bind fun _ =>
      ((resolveExpr left).imp fun _ _ h => h.operand (by simp [Expr.operands])).bind fun _ =>
        (resolveExpr right).imp fun _ _ h => h.operand (by simp [Expr.operands])
  | .logical left _ right => by
    rw [Resolver.resolveExpr]
    exact see.bind fun _ =>
      ((resolveExpr left).imp fun _ _ h => h.operand (by simp [Expr.operands])).bind fun _ =>
        (resolveExpr right).imp fun _ _ h => h.operand (by simp [Expr.operands])
  | .var id name => by
    rw [Resolver.resolveExpr]
    refine see.bind fun _ => Leads.get_bind fun r => ?_
    split
    · exact (Leads.throw _).bind fun _ => resolveLocal _ _
    · exact resolveLocal _ _
  | .assign id name value => by
    rw [Resolver.resolveExpr]
    exact see.bind fun _ =>
      ((resolveExpr value).imp fun _ _ h => h.operand (by simp [Expr.operands])).bind fun _ =>
        resolveLocal _ _
  | .call callee _ arguments => by
    rw [Resolver.resolveExpr]
    exact see.bind fun _ =>
      ((resolveExpr callee).imp fun _ _ h => h.operand (by simp [Expr.operands])).bind fun _ =>
        resolveExprs arguments fun e he => List.mem_cons_of_mem _ he
  | .property object _ => by
    rw [Resolver.resolveExpr]
    exact see.bind fun _ => (resolveExpr object).imp fun _ _ h =>
      h.operand (by simp [Expr.operands])
  | .setProperty object _ value => by
    rw [Resolver.resolveExpr]
    exact see.bind fun _ =>
      ((resolveExpr value).imp fun _ _ h => h.operand (by simp [Expr.operands])).bind fun _ =>
        (resolveExpr object).imp fun _ _ h => h.operand (by simp [Expr.operands])
  | .thisRef id keyword => by
    rw [Resolver.resolveExpr]
    refine see.bind fun _ => Leads.get_bind fun r => ?_
    split
    · exact report _
    · exact resolveLocal _ _
  | .superMethod id keyword _ => by
    rw [Resolver.resolveExpr]
    refine see.bind fun _ => Leads.get_bind fun r => ?_
    split
    · exact resolveLocal _ _
    · exact report _

theorem resolveExprs {whole : Expr} :
    (es : List Expr) → (∀ e ∈ es, e ∈ whole.operands) →
      Leads (Sees whole) (Resolver.resolveExprs es)
  | [], _ => by
    rw [Resolver.resolveExprs]
    exact Leads.pure _
  | e :: es, h => by
    rw [Resolver.resolveExprs]
    exact ((resolveExpr e).imp fun _ _ seen => seen.operand (h e List.mem_cons_self)).bind fun _ =>
      resolveExprs es fun e he => h e (List.mem_cons_of_mem _ he)

end

end Sees

/-- What a declaration reads before its name is defined. -/
def initializer? : Stmt → Option (Token × Expr)
  | .letDecl name (some e) | .constDecl name e => some (name, e)
  | _ => none

/-- All names were defined when the expression was taken up, but for one in the innermost scope,
where the expression is in the initializer of that name. -/
def Accounted (program : List Stmt) (sight : Sight) : Prop :=
  AllSettled sight.scopes ∨
    ∃ s around name initializer, Stands program (.stmt s) around ∧
      initializer? s = some (name, initializer) ∧ Within initializer sight.expression ∧
      ∀ depth x, Undefined sight.scopes depth x ↔ depth = 0 ∧ x = name.lexeme

/-- Where all names are defined, they are afterwards, and every sight in between is accounted
for. -/
def Watched (program : List Stmt) (r r' : Resolver) : Prop :=
  AllSettled r.scopes → AllSettled r'.scopes ∧
    ∃ new, r'.seen = r.seen ++ new ∧ ∀ sight ∈ new, Accounted program sight

namespace Watched

instance : IsPreorder Resolver (Watched program) where
  refl r := fun settled => ⟨settled, [], by simp, nofun⟩
  trans r₁ r₂ r₃ h₁ h₂ := by
    intro settled
    obtain ⟨settled, new₁, seen₁, all₁⟩ := h₁ settled
    obtain ⟨settled, new₂, seen₂, all₂⟩ := h₂ settled
    refine ⟨settled, new₁ ++ new₂, by rw [seen₂, seen₁, List.append_assoc], ?_⟩
    intro sight hs
    rcases List.mem_append.mp hs with hs | hs
    · exact all₁ sight hs
    · exact all₂ sight hs

/-- A step that takes up no expression. -/
theorem of_settled {v : Step Unit} (hs : ∀ r, (ending (v r)).seen = r.seen)
    (hv : ∀ r, AllSettled r.scopes → AllSettled (ending (v r)).scopes) :
    Leads (Watched program) v :=
  fun r settled => ⟨hv r settled, [], by rw [hs, List.append_nil], nofun⟩

theorem of_sees {v : Step Unit} (h : Leads (Sees e) v) : Leads (Watched program) v := by
  refine h.imp fun r r' sees settled => ?_
  obtain ⟨same, new, seen, all⟩ := sees
  refine ⟨same ▸ settled, new, seen, fun sight hs => .inl ?_⟩
  rw [(all sight hs).1]
  exact settled

end Watched

theorem AllSettled.marked (h : AllSettled scopes) (name : String) :
    AllSettled (marked name true scopes) := by
  cases scopes with
  | nil => exact h
  | cons names outer =>
    obtain ⟨inner, outer⟩ := List.forall_mem_cons.mp h
    refine List.forall_mem_cons.mpr ⟨fun x => ?_, outer⟩
    rw [lookup_cons]
    split
    · simp
    · exact inner x

/-- A name that is declared is defined where all names were, once it is marked so. -/
theorem AllSettled.declaring (h : AllSettled scopes) (name : String) :
    AllSettled (declaring scopes name) := by
  cases scopes with
  | nil => exact h
  | cons names outer =>
    obtain ⟨inner, outer⟩ := List.forall_mem_cons.mp h
    refine List.forall_mem_cons.mpr ⟨fun x => ?_, outer⟩
    rw [lookup_cons, lookup_cons]
    split
    · simp
    · exact inner x

theorem undefined_marked {names : Names} {outer : List Names} (h : AllSettled (names :: outer))
    (name : String) (depth : Nat) (x : String) :
    Undefined (marked name false (names :: outer)) depth x ↔ depth = 0 ∧ x = name := by
  obtain ⟨inner, outer⟩ := List.forall_mem_cons.mp h
  cases depth with
  | zero =>
    simp only [Undefined, marked, List.getElem?_cons_zero, Option.some.injEq, exists_eq_left',
      lookup_cons, true_and]
    by_cases hx : x = name
    · simp [hx]
    · simp [hx, inner x]
  | succ depth =>
    simp only [Undefined, marked, List.getElem?_cons_succ, Nat.succ_ne_zero, false_and, iff_false]
    rintro ⟨names', hn, hl⟩
    exact outer names' (List.mem_of_getElem? hn) x hl

namespace Watched

theorem declared_eq (name : Token) (r : Resolver) :
    Resolver.declare name r = if declared name.lexeme r.scopes then
        .error ⟨.duplicate name.lexeme, name.line⟩ r
      else .ok () { r with scopes := marked name.lexeme false r.scopes } := by
  obtain ⟨scopes, body, cls, errors, resolution, seen⟩ := r
  cases scopes with
  | nil => rfl
  | cons names outer =>
    rw [Resolver.declare, get_bind]
    by_cases hd : (names.lookup name.lexeme).isSome
    · simp only [declared, List.head?_cons, Option.any_some, hd, if_true]
      rfl
    · simp only [declared, List.head?_cons, Option.any_some, hd]
      rfl

theorem insert (name : String) : Leads (Watched program) (Resolver.insert name true) :=
  of_settled (fun r => by rw [Resolver.insert_eq]; rfl)
    fun r h => by rw [Resolver.insert_eq]; exact h.marked name

/-- A name that is declared and defined at once is never undefined for an expression. -/
theorem declareDefine (name : Token) : Leads (Watched program)
    (Resolver.declare name >>= fun _ => Resolver.define name) := by
  refine of_settled (fun r => ?_) fun r h => ?_ <;> by_cases hd : declared name.lexeme r.scopes
  · rw [bind_of_error ((declared_eq name r).trans (if_pos hd))]
    rfl
  · rw [bind_of_ok ((declared_eq name r).trans (if_neg hd)), Resolver.define, Resolver.insert_eq]
    rfl
  · rw [bind_of_error ((declared_eq name r).trans (if_pos hd))]
    exact h
  · rw [bind_of_ok ((declared_eq name r).trans (if_neg hd)), Resolver.define, Resolver.insert_eq]
    exact h.declaring name.lexeme

theorem resolveInitializer_ends (name : Token) (initializer : Option Expr) (r : Resolver) :
    ending (Resolver.resolveInitializer name initializer r) =
      { ending (Resolver.resolveOption initializer r) with
        scopes := marked name.lexeme true
          (ending (Resolver.resolveOption initializer r)).scopes } := by
  rw [Resolver.resolveInitializer]
  cases hx : Resolver.resolveOption initializer r with
  | ok u r' =>
    rw [bind_of_ok (Resolver.attempt_of_ok hx), Resolver.define,
      bind_of_ok (Resolver.insert_eq _ _ _)]
    rfl
  | error error r' =>
    rw [bind_of_ok (Resolver.attempt_of_error hx), Resolver.define,
      bind_of_ok (Resolver.insert_eq _ _ _)]
    rfl

/-- While an initializer is read, its name is the one that is undefined. -/
theorem declaration {s : Stmt} {around : List Enclosure} (hs : Stands program (.stmt s) around)
    (name : Token) (initializer : Option Expr)
    (hi : initializer? s = initializer.map fun e => (name, e)) : Leads (Watched program)
      (Resolver.declare name >>= fun _ => Resolver.resolveInitializer name initializer) := by
  intro r settled
  by_cases hd : declared name.lexeme r.scopes
  · rw [bind_of_error ((declared_eq name r).trans (if_pos hd))]
    exact refl_of (Watched program) r settled
  rw [bind_of_ok ((declared_eq name r).trans (if_neg hd)), resolveInitializer_ends]
  cases initializer with
  | none => exact ⟨settled.declaring name.lexeme, [], (List.append_nil _).symm, nofun⟩
  | some e =>
    have sees := Sees.resolveExpr e { r with scopes := marked name.lexeme false r.scopes }
    obtain ⟨same, new, seen, all⟩ := sees
    refine ⟨?_, new, seen, fun sight hm => ?_⟩
    · rw [Resolver.resolveOption, same]
      exact settled.declaring name.lexeme
    · obtain ⟨scopes, within⟩ := all sight hm
      rw [Accounted, scopes]
      cases hr : r.scopes with
      | nil => exact .inl (List.forall_mem_nil _)
      | cons names outer =>
        exact .inr ⟨s, around, name, e, hs, hi, within, undefined_marked (hr ▸ settled) _⟩

theorem isolate {v : Step Unit} (h : Leads (Watched program) v) :
    Leads (Watched program) (Resolver.isolate v) := by
  intro r settled
  obtain ⟨after, new, seen, all⟩ := h r settled
  rw [Resolver.isolate, get_bind]
  cases hv : v r with
  | ok u r' =>
    rw [hv] at after seen
    rw [bind_of_ok (Resolver.attempt_of_ok hv)]
    exact ⟨after, new, seen, all⟩
  | error error r' =>
    rw [hv] at after seen
    rw [bind_of_ok (Resolver.attempt_of_error hv)]
    exact ⟨fun names hn => after names (List.mem_of_mem_drop hn), new, seen, all⟩

theorem beginScope : Leads (Watched program) Resolver.beginScope :=
  of_settled (fun _ => rfl) fun _ h => List.forall_mem_cons.mpr ⟨.nil, h⟩

theorem endScope : Leads (Watched program) Resolver.endScope :=
  of_settled (fun _ => rfl) fun _ h names hn => h names (List.mem_of_mem_tail hn)

theorem setBody (body : BodyKind) : Leads (Watched program) (Resolver.setBody body) :=
  of_settled (fun _ => rfl) fun _ h => h

theorem setClass (cls : ClassKind) : Leads (Watched program) (Resolver.setClass cls) :=
  of_settled (fun _ => rfl) fun _ h => h

theorem report (error : StaticError) : Leads (Watched program) (Resolver.report error) :=
  of_settled (fun _ => rfl) fun _ h => h

theorem beginReceiver : Leads (Watched program) Resolver.beginReceiver := by
  refine beginScope.bind fun _ => (insert _).bind fun _ => Leads.get_bind fun r => ?_
  split
  · exact insert _
  · exact Leads.pure _

theorem resolveParameters (ps : List Token) :
    Leads (Watched program) (Resolver.resolveParameters ps) := by
  induction ps with
  | nil => exact Leads.pure _
  | cons p ps ih =>
    have both : Leads (Watched program) _ := (declareDefine p).bind fun _ => ih
    simp only [bind_assoc] at both
    exact both

theorem resolveExpr (e : Expr) : Leads (Watched program) (Resolver.resolveExpr e) :=
  of_sees (Sees.resolveExpr e)

theorem resolveReturned (keyword : Token) (value : Option Expr) :
    Leads (Watched program) (Resolver.resolveReturned keyword value) := by
  cases value with
  | none => exact Leads.pure _
  | some e =>
    refine Leads.get_bind fun r => ?_
    split
    · exact (report _).bind fun _ => resolveExpr e
    · exact resolveExpr e

theorem resolveSuperclass (name : Token) (superclass : Option Expr) :
    Leads (Watched program) (Resolver.resolveSuperclass name superclass) := by
  cases superclass with
  | none => exact Leads.pure _
  | some e =>
    refine Leads.bind ?_ fun _ => (setClass _).bind fun _ => resolveExpr e
    unfold Resolver.reportSelfInheritance
    split
    · split
      · exact report _
      · exact Leads.pure _
    · exact Leads.pure _

/-- The statements of a body stand in the program, if what has the body does. -/
theorem standing {s : Stmt} {around : List Enclosure} (h : Stands program (.stmt s) around)
    (frame : Frame) (hf : frame ∈ s.frames) :
    ∀ s ∈ frame.body, ∃ around, Stands program (.stmt s) around := by
  intro s hs
  obtain ⟨front, behind, hb⟩ := List.append_of_mem hs
  exact ⟨_, h.inside hf hb⟩

mutual

theorem resolveStmt {program : List Stmt} {around : List Enclosure} : (s : Stmt) →
    Stands program (.stmt s) around → Leads (Watched program) (Resolver.resolveStmt s)
  | .expr e, _ => by
    rw [Resolver.resolveStmt]
    exact resolveExpr e
  | .print e, _ => by
    rw [Resolver.resolveStmt]
    exact resolveExpr e
  | .letDecl name initializer, h => by
    rw [Resolver.resolveStmt]
    exact declaration h name initializer (by cases initializer <;> rfl)
  | .constDecl name initializer, h => by
    rw [Resolver.resolveStmt]
    exact declaration h name (some initializer) rfl
  | .block body, h => by
    have inside := standing h (.block body) (by simp [Stmt.frames])
    rw [Resolver.resolveStmt]
    exact beginScope.bind fun _ => (resolveStatements body inside).bind fun _ => endScope
  | .cond condition thenBranch elseBranch, h => by
    rw [Resolver.resolveStmt]
    exact (resolveExpr condition).bind fun _ =>
      (resolveStmt thenBranch (h.branch (by simp [Stmt.branches]))).bind fun _ =>
        resolveElse elseBranch fun s hs => h.branch (by simp_all [Stmt.branches])
  | .loop condition body, h => by
    rw [Resolver.resolveStmt]
    exact (resolveExpr condition).bind fun _ =>
      resolveStmt body (h.branch (by simp [Stmt.branches]))
  | .function d, h => by
    have inside := standing h (.function d) (by simp [Stmt.frames])
    have whole : Leads (Watched program) _ := (declareDefine d.name).bind fun _ =>
      resolveFunction .function d inside
    simp only [bind_assoc] at whole
    rw [Resolver.resolveStmt]
    exact whole
  | .ret keyword value, _ => by
    rw [Resolver.resolveStmt]
    refine Leads.get_bind fun r => ?_
    split
    · exact (Leads.throw _).bind fun _ => resolveReturned keyword value
    · exact resolveReturned keyword value
  | .classDecl name superclass methods statics, h => by
    rw [Resolver.resolveStmt]
    refine Leads.get_bind fun r => ?_
    have ofClass (d : FunctionDecl) (hd : d ∈ methods) :=
      standing h (.method superclass false d) (by simp [Stmt.frames, hd])
    have ofStatics (d : FunctionDecl) (hd : d ∈ statics) :=
      standing h (.method superclass true d) (by simp [Stmt.frames, hd])
    have whole : Leads (Watched program) _ := (declareDefine name).bind fun _ =>
      (setClass .base).bind fun _ => (resolveSuperclass name superclass).bind fun _ =>
        (resolveMethods methodKind methods ofClass).bind fun _ =>
          (resolveMethods (fun _ => .method) statics ofStatics).bind fun _ => setClass r.cls
    simp only [bind_assoc] at whole
    exact whole

theorem resolveStatements {program : List Stmt} : (ss : List Stmt) →
    (∀ s ∈ ss, ∃ around, Stands program (.stmt s) around) →
      Leads (Watched program) (Resolver.resolveStatements ss)
  | [], _ => by
    rw [Resolver.resolveStatements]
    exact Leads.pure _
  | s :: ss, h => by
    obtain ⟨around, stands⟩ := h s List.mem_cons_self
    rw [Resolver.resolveStatements]
    exact (isolate (resolveStmt s stands)).bind fun _ =>
      resolveStatements ss fun s hs => h s (List.mem_cons_of_mem _ hs)

theorem resolveElse {program : List Stmt} {around : List Enclosure} : (s : Option Stmt) →
    (∀ branch ∈ s, Stands program (.stmt branch) around) →
      Leads (Watched program) (Resolver.resolveElse s)
  | none, _ => by
    rw [Resolver.resolveElse]
    exact Leads.pure _
  | some s, h => by
    rw [Resolver.resolveElse]
    exact resolveStmt s (h s rfl)

theorem resolveFunction {program : List Stmt} (kind : BodyKind) : (d : FunctionDecl) →
    (∀ s ∈ d.body, ∃ around, Stands program (.stmt s) around) →
      Leads (Watched program) (Resolver.resolveFunction kind d)
  | ⟨_, parameters, body⟩, h => by
    rw [Resolver.resolveFunction]
    exact Leads.get_bind fun r => (setBody kind).bind fun _ => beginScope.bind fun _ =>
      (resolveParameters parameters).bind fun _ => (resolveStatements body h).bind fun _ =>
        endScope.bind fun _ => setBody r.body

theorem resolveMethods {program : List Stmt} (kind : String → BodyKind) : (ds : List FunctionDecl) →
    (∀ d ∈ ds, ∀ s ∈ d.body, ∃ around, Stands program (.stmt s) around) →
      Leads (Watched program) (Resolver.resolveMethods kind ds)
  | [], _ => by
    rw [Resolver.resolveMethods]
    exact Leads.pure _
  | d :: ds, h => by
    rw [Resolver.resolveMethods]
    exact beginReceiver.bind fun _ =>
      (resolveFunction _ d (h d List.mem_cons_self)).bind fun _ => endScope.bind fun _ =>
        resolveMethods kind ds fun d hd => h d (List.mem_cons_of_mem _ hd)

end

end Watched

end Sights

/-- A list of statements is walked to its end. -/
theorem walkStmts_done (context : Context) (ss : List Stmt) (p : Progress) :
    ∃ q, walkStmts context ss p = .ok () q := by
  induction ss generalizing p with
  | nil =>
    rw [walkStmts]
    exact ⟨p, rfl⟩
  | cons s ss ih =>
    obtain ⟨between, first, -⟩ := isolated_done (walkStmt context s) p
    obtain ⟨q, rest⟩ := ih between
    exact ⟨q, by rw [walkStmts, bind_of_ok first, rest]⟩

section Program

variable {source : List UInt8} {program : List Stmt}

/-- Behind a statement a resolver has the scopes that the walk has. -/
theorem resolveStatements_single {s : Stmt} (proper : s.Proper) (r : Resolver) :
    ∃ q seen, Resolver.resolveStatements [s] r =
        .ok () ((⟨r.body, r.cls⟩ : Context).resolver q seen) ∧
      Leaves s.declares? ⟨r.scopes, r.errors, r.resolution⟩ q := by
  have same := Follows.resolveStatements ⟨r.body, r.cls⟩ [s] ⟨r.scopes, r.errors, r.resolution⟩
    r.seen
  obtain ⟨q, done, scopes⟩ :=
    isolated_done (walkStmt ⟨r.body, r.cls⟩ s) ⟨r.scopes, r.errors, r.resolution⟩
  have leaves := walkStmt_leaves ⟨r.body, r.cls⟩ s proper ⟨r.scopes, r.errors, r.resolution⟩
  have walked : walkStmts ⟨r.body, r.cls⟩ [s] ⟨r.scopes, r.errors, r.resolution⟩ = .ok () q := by
    rw [walkStmts, bind_of_ok done, walkStmts]
    rfl
  rw [walked] at same
  generalize hr : Resolver.resolveStatements [s] _ = result at same
  cases same with
  | done q seen =>
    refine ⟨q, seen, hr, ?_⟩
    rw [Leaves, scopes]
    exact leaves

/-- A resolver of a program finds what the analysis finds. -/
theorem resolveStatements_analyze (resolution : Resolution) (program : List Stmt) :
    ∃ r, Resolver.resolveStatements program (.new resolution) = .ok () r ∧
      analyze resolution program = (r.errors, r.resolution) := by
  have same := Follows.resolveStatements .top program ⟨[], [], resolution⟩ []
  obtain ⟨q, walked⟩ := walkStmts_done .top program ⟨[], [], resolution⟩
  rw [walked] at same
  generalize hr : Resolver.resolveStatements program _ = result at same
  cases same with
  | done q seen => exact ⟨_, hr, by rw [analyze, walked]; rfl⟩

/-- Behind every statement of a program that was read, a resolver has as many scopes as before it,
the outer ones and the kinds as they were, and in the innermost scope, defined, the name that the
statement declares; for this all names have to be defined in front of it. So when an expression is
taken up, all names are defined but one whose initializer it is in. -/
theorem resolver_recovers (parsed : parse source = .ok program) :
    (∀ s around, Stands program (.stmt s) around → ∀ r : Resolver, AllSettled r.scopes →
      ∃ r', Resolver.resolveStatements [s] r = .ok () r' ∧
        r'.scopes.length = r.scopes.length ∧ r'.scopes.tail = r.scopes.tail ∧
        (∀ names ∈ r.scopes.head?, ∃ names' ∈ r'.scopes.head?, ∀ x,
          names'.lookup x = if s.declares? = some x then some true else names.lookup x) ∧
        r'.body = r.body ∧ r'.cls = r.cls) ∧
    ∀ resolution, ∃ r, Resolver.resolveStatements program (.new resolution) = .ok () r ∧
      analyze resolution program = (r.errors, r.resolution) ∧
      ∀ sight ∈ r.seen, Accounted program sight := by
  obtain ⟨-, proper⟩ := parse_proper parsed
  constructor
  · intro s around stands r settled
    obtain ⟨q, seen, done, leaves⟩ := resolveStatements_single (stands.proper proper).1 r
    obtain ⟨height, outer, inner⟩ := leaves.lookup settled
    exact ⟨_, done, height, outer, inner, rfl, rfl⟩
  · intro resolution
    obtain ⟨r, done, found⟩ := resolveStatements_analyze resolution program
    have watched := Watched.resolveStatements program
      (fun s hs => ⟨[], Stands.topLevel hs⟩) (.new resolution) nofun
    rw [done] at watched
    obtain ⟨-, new, seen, accounted⟩ := watched
    exact ⟨r, done, found, fun sight hs => accounted sight (List.nil_append new ▸ seen ▸ hs)⟩

namespace FailuresInBlock

/-- A name that is read in its own initializer, and a method whose parameters have one name. -/
def text : List UInt8 := Text.encode "\x7b let a = a; class A \x7b m(p, p) \x7b\x7d \x7d \x7d"

def word (text : String) : Token := ⟨.symbol .identifier, text, 1⟩

def read : Stmt := .letDecl (word "a") (some (.var 0 (word "a")))

def repeated : Stmt := .classDecl (word "A") none [⟨word "m", [word "p", word "p"], []⟩] []

def body : List Stmt := [read, repeated]

/-- Both statements fail inside the block, one in an initializer and one in the scope of a call. -/
theorem resolver_recovers_in_block :
    parse text = .ok [.block body] ∧
    Stands [.block body] (.stmt repeated) [⟨.block body, body⟩] ∧
    AllSettled [[("a", true)], []] ∧
    (∃ r', Resolver.resolveStatements [repeated]
        ⟨[[("a", true)], []], .function, .none, [], .empty, []⟩ = .ok () r' ∧
      r'.scopes.length = 2 ∧ r'.scopes.tail = [[]] ∧
      (∃ names ∈ r'.scopes.head?, names.lookup "A" = some true ∧ names.lookup "a" = some true ∧
        names.lookup "p" = none) ∧ r'.body = .function ∧ r'.cls = .none) ∧
    (analyze .empty [.block body]).1 = [⟨.ownInitializer "a", 1⟩, ⟨.duplicate "p", 1⟩] ∧
    ∃ r, Resolver.resolveStatements [.block body] (.new .empty) = .ok () r ∧
      analyze .empty [.block body] = (r.errors, r.resolution) ∧
      ∀ sight ∈ r.seen, Accounted [.block body] sight := by
  have parsed : parse text = .ok [.block body] := by with_unfolding_all rfl
  have stands : Stands [.block body] (.stmt repeated) [⟨.block body, body⟩] :=
    .inside (.topLevel List.mem_cons_self) (by simp [Stmt.frames]) (show _ = [read] ++ _ from rfl)
  have settled : AllSettled [[("a", true)], []] := by
    intro names hn x
    simp only [List.mem_cons, List.not_mem_nil, or_false] at hn
    rcases hn with rfl | rfl
    · rw [lookup_cons]
      split <;> simp
    · simp
  obtain ⟨behind, all⟩ := resolver_recovers parsed
  obtain ⟨r', done, height, outer, inner, kinds⟩ := behind repeated _ stands
    ⟨[[("a", true)], []], .function, .none, [], .empty, []⟩ settled
  obtain ⟨names, hn, lookups⟩ := inner [("a", true)] rfl
  refine ⟨parsed, stands, settled, ⟨r', done, height, outer, ⟨names, hn, ?_, ?_, ?_⟩, kinds⟩, ?_,
    all .empty⟩
  · rw [lookups]
    decide
  · rw [lookups]
    decide
  · rw [lookups]
    decide
  · with_unfolding_all rfl

end FailuresInBlock

end Program

end Scoping

end ClassScript
