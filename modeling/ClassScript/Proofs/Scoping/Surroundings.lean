import ClassScript.Proofs.Scoping.Enclosures
import ClassScript.Proofs.Scoping.Reached
import Mathlib.Data.List.Forall2

/-! Where the walk comes to what stands in a program. The context of its place is that of the
enclosures, and the scopes of the walk know the names that the enclosures have declared by then. -/
namespace ClassScript

namespace FunctionDecl

theorem Proper.isName {d : FunctionDecl} (h : d.Proper) : d.name.IsName := by
  obtain ⟨name, params, body⟩ := d
  rw [Proper] at h
  exact h.1

theorem Proper.routine {d : FunctionDecl} (h : d.Proper) :
    (∀ x ∈ d.params.map Token.lexeme, ∃ t : Token, t.IsName ∧ x = t.lexeme) ∧
      Stmt.ProperAll d.body := by
  obtain ⟨name, params, body⟩ := d
  rw [Proper] at h
  refine ⟨fun x hx => ?_, h.2.2⟩
  obtain ⟨t, ht, rfl⟩ := List.mem_map.mp hx
  exact ⟨t, h.2.1 t ht, rfl⟩

theorem properAll_iff {ds : List FunctionDecl} :
    ProperAll ds ↔ ∀ d ∈ ds, d.Proper := by
  induction ds with
  | nil => simp [ProperAll]
  | cons d ds ih => simp [ProperAll, ih]

end FunctionDecl

namespace Stmt

theorem declared_eq {s : Stmt} (h : s.Proper) : s.declared = s.declares?.toList := by
  cases s with
  | letDecl | constDecl | function | classDecl | expr | print | block | ret =>
    rw [declared]
    rfl
  | cond condition thenBranch elseBranch =>
    rw [Proper] at h
    rw [declared, h.2.1]
    cases elseBranch with
    | none => rw [declaredElse]; rfl
    | some s =>
      rw [ProperElse] at h
      rw [declaredElse, h.2.2.2]
      rfl
  | loop condition body =>
    rw [Proper] at h
    rw [declared, h.2]
    rfl

theorem declaredBy_eq {ss : List Stmt} (h : ProperAll ss) : declaredBy ss = declaredAll ss := by
  induction ss with
  | nil => rfl
  | cons s ss ih =>
    rw [ProperAll] at h
    rw [declaredAll_cons, ← ih h.2, declared_eq h.1, declaredBy, List.filterMap_cons]
    cases s.declares? <;> rfl

theorem properAll_iff {ss : List Stmt} : ProperAll ss ↔ ∀ s ∈ ss, s.Proper := by
  induction ss with
  | nil => simp [ProperAll]
  | cons s ss ih => simp [ProperAll, ih]

theorem properAll_append {ss ts : List Stmt} :
    ProperAll (ss ++ ts) ↔ ProperAll ss ∧ ProperAll ts := by
  simp [properAll_iff, or_imp, forall_and]

theorem Proper.framed {s : Stmt} (h : s.Proper) {frame : Scoping.Frame} (hf : frame ∈ s.frames) :
    (∀ x ∈ frame.parameters, ∃ t : Token, t.IsName ∧ x = t.lexeme) ∧ ProperAll frame.body := by
  cases s with
  | block ss =>
    cases List.mem_singleton.mp hf
    rw [Proper] at h
    exact ⟨nofun, h⟩
  | function d =>
    cases List.mem_singleton.mp hf
    rw [Proper] at h
    exact h.routine
  | classDecl name superclass methods statics =>
    rw [Proper] at h
    rcases List.mem_append.mp hf with hf | hf
    · obtain ⟨d, hd, rfl⟩ := List.mem_map.mp hf
      exact (FunctionDecl.properAll_iff.mp h.2.2.1 d hd).routine
    · obtain ⟨d, hd, rfl⟩ := List.mem_map.mp hf
      exact (FunctionDecl.properAll_iff.mp h.2.2.2 d hd).routine
  | expr | print | letDecl | constDecl | cond | loop | ret => cases hf

theorem Proper.branch {s b : Stmt} (h : s.Proper) (hb : b ∈ s.branches) :
    b.Proper ∧ b.declared = [] := by
  cases s with
  | cond condition thenBranch elseBranch =>
    rw [Proper] at h
    rcases List.mem_cons.mp hb with rfl | hb
    · exact ⟨h.1, h.2.1⟩
    · cases Option.mem_toList.mp hb
      rw [ProperElse] at h
      exact h.2.2
  | loop condition body =>
    cases List.mem_singleton.mp hb
    rwa [Proper] at h
  | expr | print | letDecl | constDecl | block | function | ret | classDecl => cases hb

theorem declaredAll_append (ss ts : List Stmt) :
    declaredAll (ss ++ ts) = declaredAll ss ++ declaredAll ts := List.flatMap_append

end Stmt

namespace Scoping

theorem Fragment.inner_of_operand {e e' : Expr} (h : e' ∈ e.operands) :
    (Fragment.expr e).Inner := by
  cases e with
  | var => cases h
  | _ => trivial

namespace Frame

/-- The context of a body in that around the frame. -/
def enter (context : Context) : Frame → Context
  | block _ => context
  | function _ => { context with body := .function }
  | method superclass isStatic d =>
    ⟨if isStatic then .method else methodKind d.name.lexeme, classKind superclass⟩

/-- The scopes of the walk that a frame has around that of its body. -/
def receiverScope : Frame → List Names
  | block _ | function _ => []
  | method superclass _ _ => [receiverNames (classKind superclass)]

/-- The names that the scopes of a frame declare in all. -/
def names (frame : Frame) : List (List String) :=
  (frame.parameters ++ Stmt.declaredAll frame.body) :: frame.receiver

end Frame

/-- The context of what stands in the enclosures. -/
def Context.of : List Enclosure → Context
  | [] => .top
  | c :: around => c.frame.enter (of around)

/-- The scopes of the walk know these names. -/
def Knowing : List Names → List (List String) → Prop :=
  List.Forall₂ fun names xs => ∀ x, (names.lookup x).isSome ↔ x ∈ xs

namespace Knowing

variable {names : Names} {scopes : List Names} {xs : List String} {known : List (List String)}

theorem declaring_all (h : Knowing (names :: scopes) (xs :: known)) (ys : List String) :
    Knowing (ys.foldl declaring (names :: scopes)) ((xs ++ ys) :: known) := by
  obtain ⟨hn, ho⟩ := List.forall₂_cons.mp h
  obtain ⟨names', hd, hl⟩ := lookup_declaring names scopes ys
  rw [hd]
  refine .cons (fun x => ?_) ho
  rw [hl, List.mem_append, ← hn]
  split <;> simp [*]

/-- A name is known while its initializer is read. -/
theorem reading {name : String} (h : Knowing (declaring scopes name) known) :
    Knowing (marked name false scopes) known := by
  cases scopes with
  | nil => exact h
  | cons names outer =>
    cases h with
    | cons hn ho =>
      refine .cons (fun x => ?_) ho
      rw [← hn, lookup_cons, lookup_cons, lookup_cons]
      split <;> simp

theorem receiver (frame : Frame) : Knowing frame.receiverScope frame.receiver := by
  cases frame with
  | block | function => exact .nil
  | method superclass isStatic d =>
    refine .cons (fun x => ?_) .nil
    cases superclass <;>
      simp only [classKind, receiverNames, lookup_cons, List.lookup_nil, Option.isSome_some,
        Option.isSome_none, Bool.false_eq_true, if_false, if_true] <;>
      split_ifs <;> simp_all

/-- The distance of a name is that of the first scope that has it. -/
theorem distance?_eq (h : Knowing scopes known) (name : String) :
    distance? name scopes = known.findIdx? (name ∈ ·) := by
  unfold distance?
  induction h with
  | nil => rfl
  | @cons names xs _ _ hn _ ih =>
    rw [List.findIdx?_cons, List.findIdx?_cons, ih]
    simp only [hn, decide_eq_true_eq]

end Knowing

namespace Reached

variable {program : List Stmt} {r : Resolution} {context : Context} {declared : List (List String)}
  {scopes : List Names}

/-- A statement of a body is reached behind those in front of it. -/
theorem statement (h : Analyzed program r) {front : List Stmt} {s : Stmt} {behind : List Stmt}
    (hf : Reached program context (.stmts (front ++ s :: behind)) declared scopes) :
    Reached program context (.stmt s) declared
      ((Stmt.declaredAll front).foldl declaring scopes) := by
  induction front generalizing scopes with
  | nil => exact (hf.stmts h).1
  | cons first front ih =>
    rw [Stmt.declaredAll_cons, List.foldl_append]
    exact ih (hf.stmts h).2

/-- The body of a frame is reached with the parameters declared, which are distinct. -/
theorem framed (h : Analyzed program r) {s : Stmt} {frame : Frame}
    (hf : Reached program context (.stmt s) declared scopes) (hm : frame ∈ s.frames) :
    frame.parameters.Nodup ∧ Reached program (frame.enter context) (.stmts frame.body)
      (frame.names ++ declared) (frame.parameters.foldl declaring
        ([] :: (frame.receiverScope ++ s.declared.foldl declaring scopes))) := by
  cases s with
  | block body =>
    cases List.mem_singleton.mp hm
    rw [Stmt.declared]
    exact ⟨.nil, hf.block⟩
  | function d =>
    cases List.mem_singleton.mp hm
    rw [Stmt.declared]
    exact ((hf.function h).2.routine h).2
  | classDecl name superclass methods statics =>
    obtain ⟨-, -, hmethods, hstatics⟩ := hf.classDecl h
    rw [Stmt.declared]
    rcases List.mem_append.mp hm with hm | hm
    · obtain ⟨d, hd, rfl⟩ := List.mem_map.mp hm
      cases superclass <;> exact ((hmethods d hd).routine h).2
    · obtain ⟨d, hd, rfl⟩ := List.mem_map.mp hm
      cases superclass <;> exact ((hstatics d hd).routine h).2
  | expr | print | letDecl | constDecl | cond | loop | ret => cases hm

/-- A branch declares nothing, and neither does the statement that it belongs to. -/
theorem branch (h : Analyzed program r) {s b : Stmt}
    (hf : Reached program context (.stmt s) declared scopes) (hm : b ∈ s.branches) :
    Reached program context (.stmt b) declared scopes ∧ s.declared = [] ∧ b.declared = [] := by
  obtain ⟨p, rfl, -, acc⟩ := hf.place h
  have proper : s.Proper := acc.proper
  have none := (proper.branch hm).2
  cases s with
  | cond condition thenBranch elseBranch =>
    obtain ⟨-, hthen, helse, hd⟩ := hf.cond h
    rcases List.mem_cons.mp hm with rfl | hm
    · exact ⟨hthen, hd, none⟩
    · exact ⟨helse b (Option.mem_toList.mp hm), hd, none⟩
  | loop condition body =>
    obtain ⟨-, hbody, hd⟩ := hf.loop h
    cases List.mem_singleton.mp hm
    exact ⟨hbody, by rw [Stmt.declared, hd], hd⟩
  | expr | print | letDecl | constDecl | block | function | ret | classDecl => cases hm

theorem arguments (h : Analyzed program r) {es : List Expr}
    (hf : Reached program context (.exprs es) declared scopes) :
    ∀ e ∈ es, Reached program context (.expr e) declared scopes := by
  induction es with
  | nil => simp
  | cons e es ih =>
    intro e' he
    rcases List.mem_cons.mp he with rfl | he
    · exact (hf.exprs h).1
    · exact ih (hf.exprs h).2 e' he

theorem operand (h : Analyzed program r) {e e' : Expr}
    (hf : Reached program context (.expr e) declared scopes) (hm : e' ∈ e.operands) :
    Reached program context (.expr e') declared scopes := by
  cases e with
  | literal | var | thisRef | superMethod => cases hm
  | assign id name value =>
    cases List.mem_singleton.mp hm
    exact hf.assign
  | unary operator operand =>
    cases List.mem_singleton.mp hm
    exact hf.unary
  | group inner =>
    cases List.mem_singleton.mp hm
    exact hf.group
  | property object name =>
    cases List.mem_singleton.mp hm
    exact hf.property
  | binary left operator right =>
    simp only [Expr.operands, List.mem_cons, List.not_mem_nil, or_false] at hm
    rcases hm with rfl | rfl
    · exact (hf.binary h).1
    · exact (hf.binary h).2
  | logical left operator right =>
    simp only [Expr.operands, List.mem_cons, List.not_mem_nil, or_false] at hm
    rcases hm with rfl | rfl
    · exact (hf.logical h).1
    · exact (hf.logical h).2
  | setProperty object name value =>
    simp only [Expr.operands, List.mem_cons, List.not_mem_nil, or_false] at hm
    rcases hm with rfl | rfl
    · exact (hf.setProperty h).2
    · exact (hf.setProperty h).1
  | call callee paren arguments =>
    rcases List.mem_cons.mp hm with rfl | hm
    · exact (hf.call h).1
    · exact (hf.call h).2.arguments h e' hm

/-- An expression of a statement is reached where what the statement declares is known. Only for
what a class extends the context is another than that of the statement. -/
theorem expression (h : Analyzed program r) {s : Stmt} {e : Expr}
    (hf : Reached program context (.stmt s) declared scopes) (hm : e ∈ s.expressions)
    {known : List (List String)} (hk : Knowing (s.declared.foldl declaring scopes) known) :
    ∃ context' scopes', Reached program context' (.expr e) declared scopes' ∧
      Knowing scopes' known ∧ ((Fragment.expr e).Inner → context' = context) := by
  cases s with
  | expr e =>
    cases List.mem_singleton.mp hm
    rw [Stmt.declared] at hk
    exact ⟨context, scopes, hf.expr, hk, fun _ => rfl⟩
  | print e =>
    cases List.mem_singleton.mp hm
    rw [Stmt.declared] at hk
    exact ⟨context, scopes, hf.print, hk, fun _ => rfl⟩
  | letDecl name initializer =>
    rw [Stmt.declared] at hk
    exact ⟨context, _, (hf.letDecl h).2 e (Option.mem_toList.mp hm), hk.reading, fun _ => rfl⟩
  | constDecl name initializer =>
    cases List.mem_singleton.mp hm
    rw [Stmt.declared] at hk
    exact ⟨context, _, (hf.constDecl h).2, hk.reading, fun _ => rfl⟩
  | cond condition thenBranch elseBranch =>
    cases List.mem_singleton.mp hm
    obtain ⟨hc, -, -, hd⟩ := hf.cond h
    rw [hd] at hk
    exact ⟨context, scopes, hc, hk, fun _ => rfl⟩
  | loop condition body =>
    cases List.mem_singleton.mp hm
    obtain ⟨hc, -, hd⟩ := hf.loop h
    rw [Stmt.declared, hd] at hk
    exact ⟨context, scopes, hc, hk, fun _ => rfl⟩
  | ret keyword value =>
    rw [Stmt.declared] at hk
    exact ⟨context, scopes, hf.ret h e (Option.mem_toList.mp hm), hk, fun _ => rfl⟩
  | classDecl name superclass methods statics =>
    obtain ⟨p, -, -, acc⟩ := hf.place h
    have proper : (Stmt.classDecl name superclass methods statics).Proper := acc.proper
    rw [Stmt.declared] at hk
    rw [Stmt.Proper] at proper
    cases Option.mem_toList.mp hm
    obtain ⟨id, token, rfl⟩ := proper.2.1
    exact ⟨_, _, (hf.classDecl h).2.1 _ rfl, hk, False.elim⟩
  | block | function => cases hm

end Reached

/-- What is known of a part that stands in the enclosures, where the walk has come to it. -/
structure Surrounded (program : List Stmt) (f : Fragment) (around : List Enclosure)
    (context : Context) (scopes : List Names) : Prop where
  reached : Reached program context f (around.flatMap fun c => c.frame.names) scopes
  context_eq : f.Inner → context = Context.of around
  known : Knowing (f.declared.foldl declaring scopes) (around.flatMap Enclosure.scopes)

/-- The walk of an accepted program comes to all that stands in it. -/
theorem Stands.surrounded {program : List Stmt} {r : Resolution} (h : Analyzed program r)
    {f : Fragment} {around : List Enclosure} (hs : Stands program f around) :
    ∃ context scopes, Surrounded program f around context scopes := by
  induction hs with
  | @topLevel s hm =>
    have start : Reached program .top (.stmts program) [] [] := ⟨_, rfl, .refl⟩
    obtain ⟨front, behind, he⟩ := List.append_of_mem hm
    have start : Reached program .top (.stmts (front ++ s :: behind)) [] [] := he ▸ start
    refine ⟨_, _, start.statement h, fun _ => rfl, ?_⟩
    rw [foldl_declaring_nil, foldl_declaring_nil]
    exact .nil
  | @inside outer around frame front s behind _ hf hb ih =>
    obtain ⟨context, scopes, hr, hc, hk⟩ := ih
    cases hc trivial
    have body := (hr.framed h hf).2
    obtain ⟨_, -, -, acc⟩ := body.place h
    have proper : Stmt.ProperAll (front ++ [s]) := by
      have whole : Stmt.ProperAll frame.body := acc.proper
      rw [hb, ← List.singleton_append, ← List.append_assoc] at whole
      exact (Stmt.properAll_append.mp whole).1
    rw [hb] at body
    refine ⟨_, _, body.statement h, fun _ => rfl, ?_⟩
    have opened : Knowing ([] :: (frame.receiverScope ++ outer.declared.foldl declaring scopes))
        ([] :: (frame.receiver ++ around.flatMap Enclosure.scopes)) :=
      .cons (by simp) (List.rel_append (Knowing.receiver frame) hk)
    have all := opened.declaring_all (frame.parameters ++ Stmt.declaredBy (front ++ [s]))
    have steps (scopes : List Names) :
        (frame.parameters ++ Stmt.declaredBy (front ++ [s])).foldl declaring scopes =
          s.declared.foldl declaring ((Stmt.declaredAll front).foldl declaring
            (frame.parameters.foldl declaring scopes)) := by
      rw [Stmt.declaredBy_eq proper, Stmt.declaredAll_append, List.foldl_append,
        List.foldl_append, Stmt.declaredAll_cons, Stmt.declaredAll_nil, List.append_nil]
    rwa [steps] at all
  | @branch s b around _ hb ih =>
    obtain ⟨context, scopes, hr, hc, hk⟩ := ih
    obtain ⟨hr', hs, hd⟩ := hr.branch h hb
    refine ⟨context, scopes, hr', fun _ => hc trivial, ?_⟩
    rw [Fragment.declared, hd]
    rwa [Fragment.declared, hs] at hk
  | @expression s e around _ he ih =>
    obtain ⟨context, scopes, hr, hc, hk⟩ := ih
    obtain ⟨context', scopes', hr', hk', hc'⟩ := hr.expression h he hk
    exact ⟨context', scopes', hr', fun hi => (hc' hi).trans (hc trivial), hk'⟩
  | @operand e e' around _ he ih =>
    obtain ⟨context, scopes, hr, hc, hk⟩ := ih
    exact ⟨context, scopes, hr.operand h he, fun _ => hc (Fragment.inner_of_operand he), hk⟩

end Scoping

end ClassScript
