import ClassScript.Proofs.Store.Steady

/-! Searching outward and going a distance outward. Where links lead to older scopes, the search
ends at the first scope on the way that binds the name, and so it finds what the distance of that
scope finds. -/
namespace ClassScript

namespace Scopes

variable {t : Scopes} {id parent holder scope : ScopeId} {name : String} {n d : Nat}

theorem ancestor?_succ : t.ancestor? id (n + 1) = (t.ancestor? id n).bind t.parent? := by
  induction n generalizing id with
  | zero => simp [ancestor?]
  | succ n ih =>
    rw [ancestor?, ancestor?, Option.bind_assoc]
    exact congrArg _ (funext fun parent => ih)

theorem holder?_of_bound (h : (t.binding? id name).isSome) : t.holder? name id = some id := by
  rw [holder?, if_pos h]

theorem holder?_of_unbound (h : ¬ (t.binding? id name).isSome) (hp : t.parent? id = some parent)
    (hlt : parent < id) : t.holder? name id = t.holder? name parent := by
  rw [holder?, if_neg h, hp]
  exact if_pos hlt

theorem holder?_of_outermost (h : ¬ (t.binding? id name).isSome) (hp : t.parent? id = none) :
    t.holder? name id = none := by
  rw [holder?, if_neg h, hp]

/-- The holder of a name binds it. -/
theorem holder?_binds (h : t.holder? name id = some holder) :
    (t.binding? holder name).isSome := by
  fun_induction t.holder? name id with
  | case1 id hb =>
    cases h
    exact hb
  | case2 id _ parent _ _ ih => exact ih h
  | case3 => cases h
  | case4 => cases h

/-- Outward from a scope, the first that binds the name is the holder, at the distance. -/
structure Nearest (t : Scopes) (id : ScopeId) (name : String) (d : Nat) (holder : ScopeId) :
    Prop where
  ancestor : t.ancestor? id d = some holder
  bound : (t.binding? holder name).isSome
  nearer : ∀ i < d, ∀ scope, t.ancestor? id i = some scope → ¬ (t.binding? scope name).isSome

/-- No scope outward from this one binds the name. -/
def Unbound (t : Scopes) (id : ScopeId) (name : String) : Prop :=
  ∀ d scope, t.ancestor? id d = some scope → ¬ (t.binding? scope name).isSome

/-- Links lead outward to older scopes, so that every way outward ends. -/
def Outward (t : Scopes) : Prop := ∀ id parent, t.parent? id = some parent → parent < id

theorem Nearest.outer (h : t.Nearest parent name d holder)
    (hb : ¬ (t.binding? id name).isSome) (hp : t.parent? id = some parent) :
    t.Nearest id name (d + 1) holder := by
  refine ⟨by rw [ancestor?, hp]; exact h.ancestor, h.bound, ?_⟩
  intro i hi scope hs
  cases i with
  | zero =>
    cases hs
    exact hb
  | succ i =>
    rw [ancestor?, hp] at hs
    exact h.nearer i (Nat.lt_of_succ_lt_succ hi) scope hs

theorem Unbound.outermost (hb : ¬ (t.binding? id name).isSome) (hp : t.parent? id = none) :
    t.Unbound id name := by
  intro d scope hs
  cases d with
  | zero =>
    cases hs
    exact hb
  | succ d =>
    rw [ancestor?, hp] at hs
    cases hs

theorem Unbound.outer (h : t.Unbound parent name) (hb : ¬ (t.binding? id name).isSome)
    (hp : t.parent? id = some parent) : t.Unbound id name := by
  intro d scope hs
  cases d with
  | zero =>
    cases hs
    exact hb
  | succ d =>
    rw [ancestor?, hp] at hs
    exact h d scope hs

theorem holder?_of_nearest (outward : t.Outward) (h : t.Nearest id name d holder) :
    t.holder? name id = some holder := by
  obtain ⟨hs, hb, nearer⟩ := h
  induction d generalizing id with
  | zero =>
    cases hs
    exact holder?_of_bound hb
  | succ d ih =>
    obtain ⟨parent, hp, hs⟩ := Option.bind_eq_some_iff.mp hs
    rw [holder?_of_unbound (nearer 0 d.succ_pos id rfl) hp (outward id parent hp)]
    refine ih hs fun i hi s h => nearer (i + 1) (Nat.succ_lt_succ hi) s ?_
    rw [ancestor?, hp]
    exact h

/-- The search finds the nearest scope, or there is none. -/
theorem holder?_cases (outward : t.Outward) (id : ScopeId) (name : String) :
    (∃ d holder, t.Nearest id name d holder ∧ t.holder? name id = some holder) ∨
      t.Unbound id name ∧ t.holder? name id = none := by
  induction id using Nat.strongRecOn with
  | ind id ih =>
    by_cases hb : (t.binding? id name).isSome
    · exact .inl ⟨0, id, ⟨rfl, hb, nofun⟩, holder?_of_bound hb⟩
    · cases hp : t.parent? id with
      | none => exact .inr ⟨.outermost hb hp, holder?_of_outermost hb hp⟩
      | some parent =>
        have older := outward id parent hp
        rw [holder?_of_unbound hb hp older]
        rcases ih parent older with ⟨d, holder, nearest, found⟩ | ⟨unbound, found⟩
        · exact .inl ⟨d + 1, holder, nearest.outer hb hp, found⟩
        · exact .inr ⟨unbound.outer hb hp, found⟩

theorem holder?_of_never (outward : t.Outward) (h : t.Unbound id name) :
    t.holder? name id = none := by
  rcases holder?_cases outward id name with ⟨d, holder, nearest, -⟩ | ⟨-, found⟩
  · exact absurd nearest.bound (h d holder nearest.ancestor)
  · exact found

section Access

variable {value : Value}

theorem Nearest.read (h : t.Nearest id name d holder) (outward : t.Outward) :
    read id name t = readAt id d name t := by
  rw [read_eq, readAt_eq, holder?_of_nearest outward h, h.ancestor]

theorem Nearest.assign (h : t.Nearest id name d holder) (outward : t.Outward) :
    assign id name value t = assignAt id d name value t := by
  rw [assign_eq, assignAt_eq, holder?_of_nearest outward h, h.ancestor]

/-- What the search reads is the value of the nearest binding. -/
theorem Nearest.reads (h : t.Nearest id name d holder) (outward : t.Outward) {b : Binding}
    (hb : t.binding? holder name = some b) : Scopes.read id name t = .ok b.value t := by
  rw [read_eq, holder?_of_nearest outward h]
  exact readIn_eq.trans (by rw [hb])

theorem Unbound.read (h : t.Unbound id name) (outward : t.Outward) :
    Scopes.read id name t = .error (.undefined name) t := by
  rw [read_eq, holder?_of_never outward h]

theorem Unbound.assign (h : t.Unbound id name) (outward : t.Outward) :
    Scopes.assign id name value t = .error (.undefined name) t := by
  rw [assign_eq, holder?_of_never outward h]

theorem Unbound.readAt (h : t.Unbound id name) :
    Scopes.readAt id d name t = .error (.undefined name) t := by
  rw [readAt_eq]
  cases hs : t.ancestor? id d with
  | none => rfl
  | some scope => exact readIn_eq.trans (by rw [Option.not_isSome_iff_eq_none.mp (h d scope hs)])

theorem Unbound.assignAt (h : t.Unbound id name) :
    Scopes.assignAt id d name value t = .error (.undefined name) t := by
  rw [assignAt_eq]
  cases hs : t.ancestor? id d with
  | none => rfl
  | some scope => exact assignIn_eq.trans (by rw [Option.not_isSome_iff_eq_none.mp (h d scope hs)])

end Access

end Scopes

end ClassScript
