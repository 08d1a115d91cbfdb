import ClassScript.Proofs.Steps
import ClassScript.Proofs.Syntax.Proper
import ClassScript.Scoping.Analysis
import Mathlib.Data.List.Nodup

/-! What a walk changes. It keeps the errors that it found, notes distances only at the references
it meets, and adds to the innermost scope the names that a statement declares. -/
namespace ClassScript

namespace Scoping

variable {is js : List Nat} {p q : Progress}

/-- Errors are kept, and distances change only at the identities of `is`. -/
structure Grows (is : List Nat) (p q : Progress) : Prop where
  errors : p.errors <+: q.errors
  elsewhere : ∀ i, i ∉ is → q.resolution.distance? i = p.resolution.distance? i

instance : IsPreorder Progress (Grows is) where
  refl _ := ⟨List.prefix_refl _, fun _ _ => rfl⟩
  trans _ _ _ h₁ h₂ := ⟨h₁.errors.trans h₂.errors,
    fun i hi => (h₂.elsewhere i hi).trans (h₁.elsewhere i hi)⟩

theorem Grows.mono (h : Grows is p q) (hs : is ⊆ js) : Grows js p q :=
  ⟨h.errors, fun i hi => h.elsewhere i fun hm => hi (hs hm)⟩

/-- The scopes stay as they are, too. -/
structure Notes (is : List Nat) (p q : Progress) : Prop extends Grows is p q where
  scopes : q.scopes = p.scopes

instance : IsPreorder Progress (Notes is) where
  refl p := ⟨refl_of (Grows is) p, rfl⟩
  trans _ _ _ h₁ h₂ := ⟨trans_of (Grows is) h₁.toGrows h₂.toGrows, h₂.scopes.trans h₁.scopes⟩

theorem Notes.mono (h : Notes is p q) (hs : is ⊆ js) : Notes js p q :=
  ⟨h.toGrows.mono hs, h.scopes⟩

section Notes

theorem report_notes (error : StaticError) : Leads (Notes is) (report error) :=
  Leads.modify fun _ => ⟨⟨List.prefix_append _ _, fun _ _ => rfl⟩, rfl⟩

theorem resolve_notes {id : Nat} (name : String) (h : id ∈ is) :
    Leads (Notes is) (resolve id name) := by
  refine Leads.modify fun p => ?_
  split
  · refine ⟨⟨List.prefix_refl _, ?_⟩, rfl⟩
    intro i hi
    rw [Resolution.distance?_note, if_neg]
    rintro rfl
    exact hi h
  · exact refl_of (Notes is) p

/-- Two walks one after the other note at the identities of both. -/
theorem Notes.sequence {w v : Walk Unit} (hw : Leads (Notes is) w) (hv : Leads (Notes js) v) :
    Leads (Notes (is ++ js)) (w >>= fun _ => v) :=
  (hw.imp fun _ _ h => h.mono (List.subset_append_left _ _)).bind fun _ =>
    hv.imp fun _ _ h => h.mono (List.subset_append_right _ _)

mutual

theorem walkExpr_notes (context : Context) :
    (e : Expr) → Leads (Notes (identities e.references)) (walkExpr context e)
  | .literal _ => by
    rw [walkExpr]
    exact Leads.pure _
  | .group inner => by
    rw [walkExpr, Expr.references]
    exact walkExpr_notes context inner
  | .unary _ operand => by
    rw [walkExpr, Expr.references]
    exact walkExpr_notes context operand
  | .binary left _ right => by
    rw [walkExpr, Expr.references, identities_append]
    exact Notes.sequence (walkExpr_notes context left) (walkExpr_notes context right)
  | .logical left _ right => by
    rw [walkExpr, Expr.references, identities_append]
    exact Notes.sequence (walkExpr_notes context left) (walkExpr_notes context right)
  | .var id name => by
    rw [walkExpr, Expr.references]
    refine Leads.get_bind fun p => ?_
    split
    · exact (Leads.throw _).bind fun _ => resolve_notes _ (by simp [identities])
    · exact resolve_notes _ (by simp [identities])
  | .assign id name value => by
    rw [walkExpr, Expr.references, identities_append]
    exact Notes.sequence (walkExpr_notes context value) (resolve_notes _ (by simp [identities]))
  | .call callee _ arguments => by
    rw [walkExpr, Expr.references, identities_append]
    exact Notes.sequence (walkExpr_notes context callee) (walkExprs_notes context arguments)
  | .property object _ => by
    rw [walkExpr, Expr.references]
    exact walkExpr_notes context object
  | .setProperty object _ value => by
    rw [walkExpr, Expr.references, identities_append]
    refine (Notes.sequence (walkExpr_notes context value) (walkExpr_notes context object)).imp ?_
    exact fun _ _ h => h.mono (by simp)
  | .thisRef id keyword => by
    rw [walkExpr, Expr.references]
    split
    · exact report_notes _
    · exact resolve_notes _ (by simp [identities])
  | .superMethod id keyword _ => by
    rw [walkExpr, Expr.references]
    split
    · exact resolve_notes _ (by simp [identities])
    · exact report_notes _

theorem walkExprs_notes (context : Context) :
    (es : List Expr) → Leads (Notes (identities (Expr.referencesAll es))) (walkExprs context es)
  | [] => by
    rw [walkExprs]
    exact Leads.pure _
  | e :: es => by
    rw [walkExprs, Expr.referencesAll, identities_append]
    exact Notes.sequence (walkExpr_notes context e) (walkExprs_notes context es)

end

theorem walkOption_notes (context : Context) (e : Option Expr) :
    Leads (Notes (identities (Expr.referencesOption e))) (walkOption context e) := by
  cases e with
  | none => exact Leads.pure _
  | some e => exact walkExpr_notes context e

theorem reportSelfInheritance_notes (name : Token) (superclass : Option Expr) :
    Leads (Notes is) (reportSelfInheritance name superclass) := by
  unfold reportSelfInheritance
  split
  · split
    · exact report_notes _
    · exact Leads.pure _
  · exact Leads.pure _

/-- What is checked of a `return` before its value. -/
def checkReturn (context : Context) (keyword : Token) (value : Option Expr) : Walk Unit := do
  if context.body = .none then throw ⟨.strayReturn, keyword.line⟩
  if context.body = .constructor && value.isSome then
    report ⟨.constructorReturn, keyword.line⟩

theorem walkStmt_ret (context : Context) (keyword : Token) (value : Option Expr) :
    walkStmt context (.ret keyword value) =
      (checkReturn context keyword value >>= fun _ => walkOption context value) := by
  rw [walkStmt, checkReturn]
  split <;> split <;> rfl

theorem checkReturn_notes (context : Context) (keyword : Token) (value : Option Expr) :
    Leads (Notes is) (checkReturn context keyword value) := by
  have second : Leads (Notes is) (if context.body = .constructor && value.isSome then
      report ⟨.constructorReturn, keyword.line⟩ else pure ()) := by
    split
    · exact report_notes _
    · exact Leads.pure _
  by_cases hb : context.body = .none
  · simp only [checkReturn, hb, if_true]
    exact (Leads.throw _).bind fun _ => by simpa [hb] using second
  · simp only [checkReturn, hb, if_false]
    exact second

end Notes

section Grows

theorem Grows.of_notes {α : Type} {w : Walk α} (h : Leads (Notes is) w) : Leads (Grows is) w :=
  h.imp fun _ _ h => h.toGrows

theorem mark_grows (name : String) (defined : Bool) : Leads (Grows is) (mark name defined) := by
  refine Leads.modify fun p => ?_
  split
  · exact refl_of (Grows is) p
  · exact ⟨List.prefix_refl _, fun _ _ => rfl⟩

theorem declare_grows (name : Token) : Leads (Grows is) (declare name) := by
  refine Leads.get_bind fun p => ?_
  split
  · split
    · exact (Leads.throw _).bind fun _ => mark_grows _ _
    · exact mark_grows _ _
  · exact mark_grows _ _

theorem thenDefine_grows (name : Token) {w : Walk Unit} (h : Leads (Grows is) w) :
    Leads (Grows is) (thenDefine name w) := by
  intro p
  have hd (q : Progress) : Grows is q (ending (define name q)) := mark_grows name.lexeme true q
  have hw := h p
  simp only [thenDefine]
  cases hr : w p with
  | ok a q =>
    rw [hr] at hw
    exact trans_of (Grows is) hw (hd q)
  | error e q =>
    rw [hr] at hw
    have hq := hd q
    dsimp only
    cases hdef : define name q <;> rw [hdef] at hq <;> exact trans_of (Grows is) hw hq

theorem inScope_grows (names : Names) {w : Walk Unit} (h : Leads (Grows is) w) :
    Leads (Grows is) (inScope names w) := by
  intro p
  have hw := h { p with scopes := names :: p.scopes }
  simp only [inScope]
  cases hr : w { p with scopes := names :: p.scopes } <;> rw [hr] at hw <;>
    exact ⟨hw.errors, hw.elsewhere⟩

theorem isolated_grows {w : Walk Unit} (h : Leads (Grows is) w) :
    Leads (Grows is) (isolated w) := by
  intro p
  have hw := h p
  simp only [isolated]
  cases hr : w p with
  | ok a q =>
    rw [hr] at hw
    exact hw
  | error e q =>
    rw [hr] at hw
    exact trans_of (Grows is) hw ((report_notes e q).toGrows)

theorem walkParameters_grows (ps : List Token) : Leads (Grows is) (walkParameters ps) := by
  induction ps with
  | nil => exact Leads.pure _
  | cons p ps ih =>
    exact (declare_grows p).bind fun _ => (mark_grows _ _).bind fun _ => ih

theorem Grows.sequence {w v : Walk Unit} (hw : Leads (Grows is) w) (hv : Leads (Grows js) v) :
    Leads (Grows (is ++ js)) (w >>= fun _ => v) :=
  (hw.imp fun _ _ h => h.mono (List.subset_append_left _ _)).bind fun _ =>
    hv.imp fun _ _ h => h.mono (List.subset_append_right _ _)

mutual

theorem walkStmt_grows (context : Context) :
    (s : Stmt) → Leads (Grows (identities s.references)) (walkStmt context s)
  | .expr e => by
    rw [walkStmt, Stmt.references]
    exact .of_notes (walkExpr_notes context e)
  | .print e => by
    rw [walkStmt, Stmt.references]
    exact .of_notes (walkExpr_notes context e)
  | .letDecl name initializer => by
    rw [walkStmt, Stmt.references]
    exact (declare_grows name).bind fun _ =>
      thenDefine_grows name (Grows.of_notes (walkOption_notes context initializer))
  | .constDecl name initializer => by
    rw [walkStmt, Stmt.references]
    exact (declare_grows name).bind fun _ =>
      thenDefine_grows name (Grows.of_notes (walkExpr_notes context initializer))
  | .block body => by
    rw [walkStmt, Stmt.references]
    exact inScope_grows [] (walkStmts_grows context body)
  | .cond condition thenBranch elseBranch => by
    rw [walkStmt, Stmt.references, identities_append, identities_append, List.append_assoc]
    exact Grows.sequence (.of_notes (walkExpr_notes context condition))
      (Grows.sequence (walkStmt_grows context thenBranch) (walkElse_grows context elseBranch))
  | .loop condition body => by
    rw [walkStmt, Stmt.references, identities_append]
    exact Grows.sequence (.of_notes (walkExpr_notes context condition))
      (walkStmt_grows context body)
  | .function declaration => by
    rw [walkStmt, Stmt.references]
    exact (declare_grows _).bind fun _ => (mark_grows _ _).bind fun _ =>
      walkRoutine_grows _ declaration
  | .ret keyword value => by
    rw [walkStmt_ret, Stmt.references]
    exact (Grows.of_notes (checkReturn_notes context keyword value)).bind fun _ =>
      Grows.of_notes (walkOption_notes context value)
  | .classDecl name superclass methods statics => by
    rw [walkStmt, Stmt.references, identities_append, identities_append, List.append_assoc]
    refine (declare_grows _).bind fun _ => (mark_grows _ _).bind fun _ => ?_
    refine (Grows.of_notes (reportSelfInheritance_notes name superclass)).bind fun _ => ?_
    exact Grows.sequence (.of_notes (walkOption_notes _ superclass))
      (Grows.sequence (walkMethods_grows _ _ methods) (walkMethods_grows _ _ statics))

theorem walkStmts_grows (context : Context) :
    (ss : List Stmt) → Leads (Grows (identities (Stmt.referencesAll ss))) (walkStmts context ss)
  | [] => by
    rw [walkStmts]
    exact Leads.pure _
  | s :: ss => by
    rw [walkStmts, Stmt.referencesAll, identities_append]
    exact Grows.sequence (isolated_grows (walkStmt_grows context s)) (walkStmts_grows context ss)

theorem walkElse_grows (context : Context) :
    (s : Option Stmt) → Leads (Grows (identities (Stmt.referencesOption s))) (walkElse context s)
  | none => by
    rw [walkElse]
    exact Leads.pure _
  | some s => by
    rw [walkElse, Stmt.referencesOption]
    exact walkStmt_grows context s

theorem walkRoutine_grows (context : Context) :
    (d : FunctionDecl) → Leads (Grows (identities d.references)) (walkRoutine context d)
  | ⟨_, parameters, body⟩ => by
    rw [walkRoutine, FunctionDecl.references]
    exact inScope_grows [] ((walkParameters_grows parameters).bind fun _ =>
      walkStmts_grows context body)

theorem walkMethods_grows (kind : String → BodyKind) (context : Context) :
    (ds : List FunctionDecl) →
      Leads (Grows (identities (FunctionDecl.referencesAll ds))) (walkMethods kind context ds)
  | [] => by
    rw [walkMethods]
    exact Leads.pure _
  | d :: ds => by
    rw [walkMethods, FunctionDecl.referencesAll, identities_append]
    exact Grows.sequence (inScope_grows _ (walkRoutine_grows _ d))
      (walkMethods_grows kind context ds)

end

end Grows

section Scopes

/-- The scopes with a name marked in the innermost. -/
def marked (name : String) (defined : Bool) : List Names → List Names
  | [] => []
  | names :: outer => ((name, defined) :: names) :: outer

/-- The scopes with a name declared and defined in the innermost. -/
def declaring (scopes : List Names) (name : String) : List Names :=
  marked name true (marked name false scopes)

/-- The names declared one after the other are known, and the others as before. -/
theorem lookup_declaring (names : Names) (outer : List Names) (xs : List String) :
    ∃ names', xs.foldl declaring (names :: outer) = names' :: outer ∧
      ∀ x, names'.lookup x = if x ∈ xs then some true else names.lookup x := by
  induction xs generalizing names with
  | nil => exact ⟨names, rfl, by simp⟩
  | cons y ys ih =>
    obtain ⟨names', hn, hl⟩ := ih ((y, true) :: (y, false) :: names)
    refine ⟨names', hn, fun x => ?_⟩
    rw [hl, lookup_cons, lookup_cons]
    by_cases hx : x = y <;> simp [hx]

theorem foldl_declaring_nil (xs : List String) : xs.foldl declaring [] = [] := by
  induction xs with
  | nil => rfl
  | cons x xs ih => exact ih

/-- The names can be declared in the innermost scope: each once, and none is there yet. -/
def Free (xs : List String) (scopes : List Names) : Prop :=
  ∀ names ∈ scopes.head?, xs.Nodup ∧ ∀ x ∈ xs, names.lookup x = none

namespace Free

variable {xs ys : List String} {scopes : List Names}

theorem nil : Free [] scopes := by simp [Free]

theorem singleton {x : String} :
    Free [x] scopes ↔ ∀ names ∈ scopes.head?, names.lookup x = none := by
  simp [Free]

theorem append : Free (xs ++ ys) scopes ↔ Free xs scopes ∧ Free ys (xs.foldl declaring scopes) := by
  cases scopes with
  | nil => simp [Free, foldl_declaring_nil]
  | cons names outer =>
    obtain ⟨names', hd, hl⟩ := lookup_declaring names outer xs
    rw [hd]
    simp only [Free, List.head?_cons, Option.mem_def, Option.some.injEq, forall_eq', hl,
      List.nodup_append', List.mem_append]
    constructor
    · rintro ⟨⟨hx, hy, apart⟩, free⟩
      refine ⟨⟨hx, fun x hm => free x (.inl hm)⟩, hy, fun y hm => ?_⟩
      rw [if_neg fun hm' => apart hm' hm]
      exact free y (.inr hm)
    · rintro ⟨⟨hx, freex⟩, hy, freey⟩
      have apart y (hm : y ∈ ys) : y ∉ xs ∧ names.lookup y = none := by
        have := freey y hm
        split at this
        · cases this
        · exact ⟨‹_›, this⟩
      refine ⟨⟨hx, hy, fun y hm hm' => (apart y hm').1 hm⟩, ?_⟩
      rintro y (hm | hm)
      · exact freex y hm
      · exact (apart y hm).2

/-- In a new scope names are free if they are distinct. -/
theorem new {outer : List Names} : Free xs ([] :: outer) ↔ xs.Nodup := by
  simp [Free]

end Free

theorem mark_eq (name : String) (defined : Bool) (p : Progress) :
    mark name defined p = .ok () { p with scopes := marked name defined p.scopes } := by
  obtain ⟨scopes, errors, resolution⟩ := p
  cases scopes <;> rfl

theorem define_ok {name : Token} {u : Unit} (h : define name p = .ok u q) :
    q = { p with scopes := marked name.lexeme true p.scopes } := by
  rw [define, mark_eq] at h
  cases h
  rfl

theorem declare_ok {name : Token} {u : Unit} (h : declare name p = .ok u q) :
    (∀ names ∈ p.scopes.head?, names.lookup name.lexeme = none) ∧
      q = { p with scopes := marked name.lexeme false p.scopes } := by
  obtain ⟨scopes, errors, resolution⟩ := p
  cases scopes with
  | nil =>
    cases h
    exact ⟨by simp, rfl⟩
  | cons names outer =>
    obtain ⟨_, _, hg, h⟩ := bind_ok.mp h
    cases hg
    dsimp only at h
    split at h
    · cases h
    · rename_i fresh
      cases h
      refine ⟨?_, rfl⟩
      intro names' hn
      cases hn
      exact Option.not_isSome_iff_eq_none.mp fresh

theorem thenDefine_ok {name : Token} {w : Walk Unit} {u : Unit}
    (h : thenDefine name w p = .ok u q) :
    ∃ m, w p = .ok () m ∧ q = { m with scopes := marked name.lexeme true m.scopes } := by
  simp only [thenDefine] at h
  cases hw : w p with
  | ok a m =>
    simp only [hw, define, mark_eq] at h
    cases h
    exact ⟨m, rfl, rfl⟩
  | error e m =>
    simp only [hw, define, mark_eq] at h
    cases h

theorem inScope_ok {names : Names} {w : Walk Unit} {u : Unit} (h : inScope names w p = .ok u q) :
    ∃ m, w { p with scopes := names :: p.scopes } = .ok () m ∧
      q = { m with scopes := p.scopes } := by
  simp only [inScope] at h
  cases hw : w { p with scopes := names :: p.scopes } with
  | ok a m =>
    simp only [hw] at h
    cases h
    exact ⟨m, rfl, rfl⟩
  | error e m =>
    simp only [hw] at h
    cases h

/-- A statement that ended without an error that it reported ended by itself. -/
theorem isolated_ok {w : Walk Unit} {u : Unit} (h : isolated w p = .ok u q) (hq : q.errors = []) :
    w p = .ok () q := by
  simp only [isolated] at h
  cases hw : w p with
  | ok a m =>
    simp only [hw] at h
    cases h
    rfl
  | error e m =>
    simp only [hw] at h
    cases h
    simp at hq

theorem walkExpr_scopes {context : Context} {e : Expr} (h : walkExpr context e p = .ok () q) :
    q.scopes = p.scopes := ((walkExpr_notes context e).ok h).scopes

theorem walkOption_scopes {context : Context} {e : Option Expr}
    (h : walkOption context e p = .ok () q) : q.scopes = p.scopes :=
  ((walkOption_notes context e).ok h).scopes

theorem walkMethods_scopes {kind : String → BodyKind} {context : Context} {ds : List FunctionDecl}
    (h : walkMethods kind context ds p = .ok () q) : q.scopes = p.scopes := by
  induction ds generalizing p with
  | nil =>
    rw [walkMethods] at h
    cases h
    rfl
  | cons d ds ih =>
    rw [walkMethods] at h
    obtain ⟨_, m, hd, h⟩ := bind_ok.mp h
    obtain ⟨m', -, rfl⟩ := inScope_ok hd
    rw [ih h]

theorem walkParameters_scopes {ps : List Token} (h : walkParameters ps p = .ok () q) :
    q.scopes = (ps.map Token.lexeme).foldl declaring p.scopes := by
  induction ps generalizing p with
  | nil =>
    cases h
    rfl
  | cons t ps ih =>
    obtain ⟨_, m, hd, h⟩ := bind_ok.mp h
    obtain ⟨_, m', hm, h⟩ := bind_ok.mp h
    obtain ⟨-, rfl⟩ := declare_ok hd
    obtain rfl := define_ok hm
    exact ih h

/-- Parameters that are walked without an error were free. -/
theorem walkParameters_free {ps : List Token} (h : walkParameters ps p = .ok () q) :
    Free (ps.map Token.lexeme) p.scopes := by
  induction ps generalizing p with
  | nil => exact .nil
  | cons t ps ih =>
    obtain ⟨_, m, hd, h⟩ := bind_ok.mp h
    obtain ⟨_, m', hm, h⟩ := bind_ok.mp h
    obtain ⟨unknown, rfl⟩ := declare_ok hd
    obtain rfl := define_ok hm
    exact Free.append.mpr ⟨Free.singleton.mpr unknown, ih h⟩

mutual

/-- What a statement adds to the scopes is what it declares. -/
theorem walkStmt_scopes {context : Context} {p q : Progress} :
    (s : Stmt) → walkStmt context s p = .ok () q →
      q.scopes = s.declared.foldl declaring p.scopes
  | .expr e, h => by
    rw [walkStmt] at h
    rw [Stmt.declared]
    exact walkExpr_scopes h
  | .print e, h => by
    rw [walkStmt] at h
    rw [Stmt.declared]
    exact walkExpr_scopes h
  | .letDecl name initializer, h => by
    rw [walkStmt] at h
    rw [Stmt.declared]
    obtain ⟨_, m, hd, h⟩ := bind_ok.mp h
    obtain ⟨m', hw, rfl⟩ := thenDefine_ok h
    obtain ⟨-, rfl⟩ := declare_ok hd
    simp [walkOption_scopes hw, declaring]
  | .constDecl name initializer, h => by
    rw [walkStmt] at h
    rw [Stmt.declared]
    obtain ⟨_, m, hd, h⟩ := bind_ok.mp h
    obtain ⟨m', hw, rfl⟩ := thenDefine_ok h
    obtain ⟨-, rfl⟩ := declare_ok hd
    simp [walkExpr_scopes hw, declaring]
  | .block body, h => by
    rw [walkStmt] at h
    rw [Stmt.declared]
    obtain ⟨m, -, rfl⟩ := inScope_ok h
    rfl
  | .cond condition thenBranch elseBranch, h => by
    rw [walkStmt] at h
    rw [Stmt.declared, List.foldl_append]
    obtain ⟨_, m, hc, h⟩ := bind_ok.mp h
    obtain ⟨_, m', ht, he⟩ := bind_ok.mp h
    rw [walkElse_scopes elseBranch he, walkStmt_scopes thenBranch ht, walkExpr_scopes hc]
  | .loop condition body, h => by
    rw [walkStmt] at h
    rw [Stmt.declared]
    obtain ⟨_, m, hc, hb⟩ := bind_ok.mp h
    rw [walkStmt_scopes body hb, walkExpr_scopes hc]
  | .function ⟨name, parameters, body⟩, h => by
    rw [walkStmt] at h
    rw [Stmt.declared]
    obtain ⟨_, m, hd, h⟩ := bind_ok.mp h
    obtain ⟨_, m', hm, h⟩ := bind_ok.mp h
    rw [walkRoutine] at h
    obtain ⟨m'', -, rfl⟩ := inScope_ok h
    obtain ⟨-, rfl⟩ := declare_ok hd
    obtain rfl := define_ok hm
    rfl
  | .ret keyword value, h => by
    rw [walkStmt_ret] at h
    rw [Stmt.declared]
    obtain ⟨_, m, hc, h⟩ := bind_ok.mp h
    have checked : Leads (Notes []) (checkReturn context keyword value) :=
      checkReturn_notes context keyword value
    exact (walkOption_scopes h).trans (checked.ok hc).scopes
  | .classDecl name superclass methods statics, h => by
    rw [walkStmt] at h
    rw [Stmt.declared]
    obtain ⟨_, m, hd, h⟩ := bind_ok.mp h
    obtain ⟨_, m', hm, h⟩ := bind_ok.mp h
    obtain ⟨_, m₂, hr, h⟩ := bind_ok.mp h
    obtain ⟨_, m₃, ho, h⟩ := bind_ok.mp h
    obtain ⟨_, m₄, hi, hs⟩ := bind_ok.mp h
    obtain ⟨-, rfl⟩ := declare_ok hd
    obtain rfl := define_ok hm
    have reported : Leads (Notes []) (reportSelfInheritance name superclass) :=
      reportSelfInheritance_notes name superclass
    rw [walkMethods_scopes hs, walkMethods_scopes hi, walkOption_scopes ho,
      (reported.ok hr).scopes]
    rfl

theorem walkElse_scopes {context : Context} {p q : Progress} :
    (s : Option Stmt) → walkElse context s p = .ok () q →
      q.scopes = (Stmt.declaredElse s).foldl declaring p.scopes
  | none, h => by
    rw [walkElse] at h
    cases h
    rw [Stmt.declaredElse]
    rfl
  | some s, h => by
    rw [walkElse] at h
    rw [Stmt.declaredElse]
    exact walkStmt_scopes s h

end

end Scopes

end Scoping

end ClassScript
