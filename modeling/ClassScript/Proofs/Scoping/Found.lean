import ClassScript.Proofs.Scoping.Reached

/-! Where the walk finds the parts of an accepted program, in whatever context: the scopes in which
they are found, from those in which the tree is found that they are parts of. -/
namespace ClassScript

namespace Scoping

/-- The walk comes to the fragment in these scopes, which declare these names in all. -/
def Found (program : List Stmt) (f : Fragment) (declared : List (List String))
    (scopes : List Names) : Prop :=
  ∃ P : Place, Visits program P ∧ P.fragment = f ∧ P.declared = declared ∧
    P.progress.scopes = scopes

namespace Found

variable {program : List Stmt} {r : Resolution} {declared : List (List String)}
  {scopes : List Names}

theorem start (program : List Stmt) : Found program (.stmts program) [] [] :=
  ⟨_, .refl, rfl, rfl, rfl⟩

theorem of_reached {context : Context} {f : Fragment}
    (h : Reached program context f declared scopes) : Found program f declared scopes := by
  obtain ⟨p, hs, hv⟩ := h
  exact ⟨_, hv, rfl, rfl, hs⟩

/-- It comes there in some context. -/
theorem reached {f : Fragment} (h : Found program f declared scopes) :
    ∃ context, Reached program context f declared scopes := by
  obtain ⟨P, hv, rfl, rfl, rfl⟩ := h
  exact ⟨P.context, P.progress, rfl, hv⟩

/-- What is found beside a fragment in every context is found beside it. -/
theorem part {f g : Fragment} {declared' : List (List String)} {scopes' : List Names}
    (hf : Found program f declared scopes)
    (hp : ∀ {context : Context}, Reached program context f declared scopes →
      Reached program context g declared' scopes') : Found program g declared' scopes' := by
  obtain ⟨context, hf⟩ := hf.reached
  exact of_reached (hp hf)

theorem letDecl (h : Analyzed program r) {name : Token} {initializer : Option Expr}
    (hf : Found program (.stmt (.letDecl name initializer)) declared scopes) :
    Fresh name declared scopes ∧ ∀ e ∈ initializer,
      Found program (.expr e) declared (marked name.lexeme false scopes) := by
  obtain ⟨context, hf⟩ := hf.reached
  exact ⟨(hf.letDecl h).1, fun e he => of_reached ((hf.letDecl h).2 e he)⟩

theorem constDecl (h : Analyzed program r) {name : Token} {initializer : Expr}
    (hf : Found program (.stmt (.constDecl name initializer)) declared scopes) :
    Fresh name declared scopes ∧
      Found program (.expr initializer) declared (marked name.lexeme false scopes) := by
  obtain ⟨context, hf⟩ := hf.reached
  exact ⟨(hf.constDecl h).1, of_reached (hf.constDecl h).2⟩

theorem function (h : Analyzed program r) {d : FunctionDecl}
    (hf : Found program (.stmt (.function d)) declared scopes) :
    Fresh d.name declared scopes ∧
      Found program (.routine d) declared (declaring scopes d.name.lexeme) := by
  obtain ⟨context, hf⟩ := hf.reached
  exact ⟨(hf.function h).1, of_reached (hf.function h).2⟩

theorem classDecl (h : Analyzed program r) {name : Token} {superclass : Option Expr}
    {methods statics : List FunctionDecl}
    (hf : Found program (.stmt (.classDecl name superclass methods statics)) declared scopes) :
    Fresh name declared scopes ∧
      (∀ e ∈ superclass, Found program (.expr e) declared (declaring scopes name.lexeme)) ∧
      ∀ d ∈ methods ++ statics, Found program (.routine d)
        (receiverWords (classKind superclass) :: declared)
        (receiverNames (classKind superclass) :: declaring scopes name.lexeme) := by
  obtain ⟨context, hf⟩ := hf.reached
  obtain ⟨fresh, extended, methods, statics⟩ := hf.classDecl h
  refine ⟨fresh, fun e he => of_reached (extended e he), ?_⟩
  intro d hd
  rcases List.mem_append.mp hd with hd | hd
  · exact of_reached (methods d hd)
  · exact of_reached (statics d hd)

theorem routine (h : Analyzed program r) {d : FunctionDecl}
    (hf : Found program (.routine d) declared scopes) :
    (∀ t ∈ d.params, t.IsName) ∧ Found program (.stmts d.body) (routineNames d :: declared)
      ((d.params.map Token.lexeme).foldl declaring ([] :: scopes)) := by
  obtain ⟨context, hf⟩ := hf.reached
  exact ⟨(hf.routine h).1, of_reached (hf.routine h).2.2⟩

end Found

end Scoping

end ClassScript
