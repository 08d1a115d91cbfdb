import ClassScript.Proofs.Machine.Upkeep

/-! Where a machine stands. Its chain of scopes mirrors the scopes of the walk at a place, and its
current scope binds nothing that is not defined there. -/
namespace ClassScript

open Scoping (Names Found Reached Fragment Analyzed marked declaring)

namespace Machine

variable {program : List Stmt} {r : Resolution} {layout layout' : List (List String)}
  {m m' : Machine} {declared : List (List String)} {scopes : List Names}

structure Standing (layout : List (List String)) (m : Machine) (declared : List (List String))
    (scopes : List Names) : Prop where
  mirrors : Mirrors (world layout m) declared scopes m.current
  exact : ∀ names ∈ scopes.head?, ∀ x, (m.scopes.binding? m.current x).isSome →
    names.lookup x = some true

/-- The machine stands at a place where the walk finds the fragment. -/
def At (program : List Stmt) (layout : List (List String)) (m : Machine) (f : Fragment) : Prop :=
  ∃ declared scopes, Found program f declared scopes ∧ Standing layout m declared scopes

/-- It stands at what the walk finds in the same scopes. -/
theorem At.part {f g : Fragment} (ha : At program layout m f)
    (hp : ∀ {context declared scopes}, Reached program context f declared scopes →
      Reached program context g declared scopes) : At program layout m g := by
  obtain ⟨declared, scopes, hf, hst⟩ := ha
  exact ⟨declared, scopes, hf.part hp, hst⟩

/-- A branch declares no name. -/
theorem At.cond_declared {condition : Expr} {thenBranch : Stmt} {elseBranch : Option Stmt}
    (h : Analyzed program r)
    (ha : At program layout m (.stmt (.cond condition thenBranch elseBranch))) :
    (Stmt.cond condition thenBranch elseBranch).declared = [] := by
  obtain ⟨declared, scopes, hf, -⟩ := ha
  obtain ⟨context, hf⟩ := hf.reached
  exact (hf.cond h).2.2.2

/-- The body of a loop declares no name. -/
theorem At.body_declared {condition : Expr} {body : Stmt} (h : Analyzed program r)
    (ha : At program layout m (.stmt (.loop condition body))) : body.declared = [] := by
  obtain ⟨declared, scopes, hf, -⟩ := ha
  obtain ⟨context, hf⟩ := hf.reached
  exact (hf.loop h).2.2

namespace Standing

theorem lt_size (h : Standing layout m declared scopes) (ht : Tidy program r layout m) :
    m.current < m.scopes.all.size := ht.lt_size h.mirrors

/-- A name of the innermost scope is one that it declares. -/
theorem laid (h : Standing layout m declared scopes) {name : String}
    (hn : ∀ names ∈ declared.head?, name ∈ names) (above : topLevel < m.current) :
    ∃ names, layout[m.current]? = some names ∧ name ∈ names := by
  obtain ⟨mirrors, -⟩ := h
  generalize m.current = id at *
  cases mirrors with
  | topLevel => exact absurd above (Nat.lt_irrefl _)
  | inside _ laid => exact ⟨_, laid, hn _ rfl⟩

/-- Where nothing was declared the machine stands as before. -/
theorem unchanged (h : Standing layout m declared scopes) (ht : Tidy program r layout m)
    (hu : Unchanged m m') (hg : (world layout m).Grows (world layout' m')) :
    Standing layout' m' declared scopes := by
  refine ⟨hu.current ▸ h.mirrors.mono hg, ?_⟩
  intro names hn x hx
  rw [hu.current] at hx
  rcases hu.steady.gained m.current x (h.lt_size ht) hx with hb | hf
  · exact h.exact names hn x hb
  · exact hf.elim

/-- After declarations it stands where the walk has gone on to. -/
theorem declared_all (h : Standing layout m declared scopes) (ht : Tidy program r layout m)
    {xs : List String} (hf : Frame xs m m') (hg : (world layout m).Grows (world layout' m'))
    (hb : ∀ x ∈ xs, (m'.scopes.binding? m'.current x).isSome) :
    Standing layout' m' declared (xs.foldl declaring scopes) := by
  have mirrors : Mirrors (world layout' m') declared scopes m'.current :=
    hf.current ▸ h.mirrors.mono hg
  have gained x (hx : (m'.scopes.binding? m'.current x).isSome) :
      (m.scopes.binding? m.current x).isSome ∨ x ∈ xs := by
    rw [hf.current] at hx
    exact (hf.steady.gained m.current x (h.lt_size ht) hx).imp_right And.right
  have exact := h.exact
  generalize hid : m'.current = id at *
  cases mirrors with
  | topLevel =>
    rw [Scoping.foldl_declaring_nil]
    exact ⟨hid ▸ .topLevel, by simp⟩
  | @inside _ parent names known outerDeclared outer above laid defined around outward =>
    obtain ⟨names', hn, hl⟩ := Scoping.lookup_declaring known outer xs
    rw [hn]
    refine ⟨hid ▸ .inside above laid ?_ around outward, ?_⟩
    · intro x hx
      rw [hl] at hx
      split at hx
      · rename_i hm
        exact hb x hm
      · exact defined x hx
    · rintro _ ⟨⟩ x hx
      rw [hl]
      split
      · rfl
      · rename_i hm
        exact exact known rfl x ((gained x (hid ▸ hx)).resolve_right hm)

/-- While its initializer is read, a name that is not known yet is not bound. -/
theorem reading (h : Standing layout m declared scopes) {name : String}
    (hn : ∀ names ∈ scopes.head?, names.lookup name = none) :
    Standing layout m declared (marked name false scopes) := by
  obtain ⟨mirrors, exact⟩ := h
  generalize hid : m.current = id at *
  cases mirrors with
  | topLevel => exact ⟨hid ▸ .topLevel, by simp [marked]⟩
  | @inside _ parent names known outerDeclared outer above laid defined around outward =>
    refine ⟨hid ▸ .inside above laid ?_ around outward, ?_⟩
    · intro x hx
      rw [lookup_cons] at hx
      split at hx
      · cases hx
      · exact defined x hx
    · rintro _ ⟨⟩ x hx
      have hl := exact known rfl x (hid ▸ hx)
      rw [lookup_cons, if_neg]
      · exact hl
      · rintro rfl
        rw [hn known rfl] at hl
        cases hl

/-- The scope of a block or a call stands for a new scope of the walk. -/
theorem opened {parent scope : ScopeId} {names : List String}
    (ho : Tidy.Opened program r layout m parent [] names scope m')
    (hm : Mirrors (world layout m) declared scopes parent) :
    Standing (layout ++ [names]) { m' with current := scope } (names :: declared)
      ([] :: scopes) := by
  refine ⟨ho.mirrors hm (by simp), ?_⟩
  rintro _ ⟨⟩ x hx
  change (m'.scopes.binding? scope x).isSome at hx
  rw [ho.binding] at hx
  cases hx

end Standing

end Machine

end ClassScript
