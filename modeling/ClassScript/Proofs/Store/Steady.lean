import ClassScript.Proofs.Steps
import ClassScript.Store.Scopes

/-! What a run keeps of the store of scopes. A scope keeps the scope around it and its bindings, a
constant keeps its value, and scopes gain bindings only where they are declared. -/
namespace ClassScript

namespace Scopes

variable {t t' t'' : Scopes} {id other : ScopeId} {name x : String} {value : Value}

theorem scope?_eq_none {t : Scopes} {id : ScopeId} : t.scope? id = none ↔ t.all.size ≤ id := by
  simp [scope?]

theorem lt_size {b : Binding} (h : t.binding? id x = some b) : id < t.all.size := by
  obtain ⟨scope, hs, -⟩ := Option.bind_eq_some_iff.mp h
  exact (Array.getElem?_eq_some_iff.mp hs).1

section Create

variable {scope : Scope}

theorem create_eq (scope : Scope) (t : Scopes) :
    create scope t = .ok t.all.size ⟨t.all.push scope⟩ := rfl

theorem scope?_push : (Scopes.mk (t.all.push scope)).scope? id =
    if id = t.all.size then some scope else t.scope? id := Array.getElem?_push

theorem binding?_push (h : id < t.all.size) :
    (Scopes.mk (t.all.push scope)).binding? id x = t.binding? id x := by
  rw [binding?, scope?_push, if_neg (Nat.ne_of_lt h), binding?]

theorem binding?_push_new :
    (Scopes.mk (t.all.push scope)).binding? t.all.size x = scope.find? x := by
  rw [binding?, scope?_push, if_pos rfl, Option.bind_some]

theorem parent?_push (h : id < t.all.size) :
    (Scopes.mk (t.all.push scope)).parent? id = t.parent? id := by
  rw [parent?, scope?_push, if_neg (Nat.ne_of_lt h), parent?]

theorem parent?_push_new :
    (Scopes.mk (t.all.push scope)).parent? t.all.size = scope.parent := by
  rw [parent?, scope?_push, if_pos rfl, Option.bind_some]

end Create

section Change

variable {change : Scope → Scope}

theorem scope?_modify : (Scopes.mk (t.all.modify id change)).scope? other =
    if id = other then (t.scope? other).map change else t.scope? other := by
  rw [scope?, Array.getElem?_modify, scope?]

/-- A change of bindings leaves the tree of scopes alone. -/
theorem parent?_modify (h : ∀ scope, (change scope).parent = scope.parent) :
    (Scopes.mk (t.all.modify id change)).parent? other = t.parent? other := by
  rw [parent?, scope?_modify, parent?]
  split
  · cases t.scope? other <;> simp [h]
  · rfl

theorem binding?_add (h : id < t.all.size) {b : Binding} :
    (Scopes.mk (t.all.modify id (·.add name b))).binding? other x =
      if id = other ∧ x = name then some b else t.binding? other x := by
  rw [binding?, scope?_modify, binding?]
  by_cases here : id = other
  · subst here
    obtain ⟨scope, hs⟩ := Option.ne_none_iff_exists'.mp (mt scope?_eq_none.mp (Nat.not_le.mpr h))
    simp [hs]
  · simp [here]

theorem parent?_add {b : Binding} :
    (Scopes.mk (t.all.modify id (·.add name b))).parent? other = t.parent? other :=
  parent?_modify fun _ => rfl

theorem parent?_write :
    (Scopes.mk (t.all.modify id (·.write name value))).parent? other = t.parent? other :=
  parent?_modify fun _ => rfl

theorem binding?_write :
    (Scopes.mk (t.all.modify id (·.write name value))).binding? other x =
      if id = other ∧ x = name then (t.binding? other x).map ({ · with value })
      else t.binding? other x := by
  rw [binding?, scope?_modify, binding?]
  by_cases here : id = other
  · subst here
    cases t.scope? id <;> simp
  · simp [here]

end Change

section Outcomes

variable {u : Unit} {constant : Bool}

theorem define_eq : define id name value constant t =
    if (t.binding? id name).isSome then .error (.duplicate name) t
    else .ok () ⟨t.all.modify id (·.add name ⟨value, constant⟩)⟩ := by
  rw [define, get_bind]
  split <;> rfl

theorem assignIn_eq : assignIn id name value t =
    match t.binding? id name with
    | some b => if b.constant then .error (.constant name) t
      else .ok () ⟨t.all.modify id (·.write name value)⟩
    | none => .error (.undefined name) t := by
  rw [assignIn, get_bind]
  cases t.binding? id name with
  | none => rfl
  | some b =>
    dsimp only
    split <;> rfl

theorem readIn_eq : readIn id name t =
    match t.binding? id name with
    | some b => .ok b.value t
    | none => .error (.undefined name) t := by
  rw [readIn, get_bind]
  cases t.binding? id name <;> rfl

theorem read_eq : read id name t =
    match t.holder? name id with
    | some holder => readIn holder name t
    | none => .error (.undefined name) t := by
  rw [read, get_bind]
  cases t.holder? name id <;> rfl

theorem assign_eq : assign id name value t =
    match t.holder? name id with
    | some holder => assignIn holder name value t
    | none => .error (.undefined name) t := by
  rw [assign, get_bind]
  cases t.holder? name id <;> rfl

theorem readAt_eq {distance : Nat} : readAt id distance name t =
    match t.ancestor? id distance with
    | some scope => readIn scope name t
    | none => .error (.undefined name) t := by
  rw [readAt, get_bind]
  cases t.ancestor? id distance <;> rfl

theorem assignAt_eq {distance : Nat} : assignAt id distance name value t =
    match t.ancestor? id distance with
    | some scope => assignIn scope name value t
    | none => .error (.undefined name) t := by
  rw [assignAt, get_bind]
  cases t.ancestor? id distance <;> rfl

end Outcomes

/-- The store keeps what it has, and old scopes gain a binding only where `fresh` allows it. -/
structure Steady (fresh : ScopeId → String → Prop) (t t' : Scopes) : Prop where
  size : t.all.size ≤ t'.all.size
  parents : ∀ id, id < t.all.size → t'.parent? id = t.parent? id
  kept : ∀ id x b, t.binding? id x = some b → ∃ b', t'.binding? id x = some b' ∧
    b'.constant = b.constant ∧ (b.constant = true → b'.value = b.value)
  gained : ∀ id x, id < t.all.size → (t'.binding? id x).isSome →
    (t.binding? id x).isSome ∨ fresh id x

namespace Steady

variable {fresh fresh' : ScopeId → String → Prop}

instance : IsPreorder Scopes (Steady fresh) where
  refl t := ⟨Nat.le_refl _, fun _ _ => rfl, fun _ _ b hb => ⟨b, hb, rfl, fun _ => rfl⟩,
    fun _ _ _ h => .inl h⟩
  trans t t' t'' h h' := by
    refine ⟨Nat.le_trans h.size h'.size, ?_, ?_, ?_⟩
    · intro id hid
      rw [h'.parents id (Nat.lt_of_lt_of_le hid h.size), h.parents id hid]
    · intro id x b hb
      obtain ⟨b', hb', hc, hv⟩ := h.kept id x b hb
      obtain ⟨b'', hb'', hc', hv'⟩ := h'.kept id x b' hb'
      exact ⟨b'', hb'', hc'.trans hc, fun hb => (hv' (hc.trans hb)).trans (hv hb)⟩
    · intro id x hid hb
      rcases h'.gained id x (Nat.lt_of_lt_of_le hid h.size) hb with hb | hf
      · exact h.gained id x hid hb
      · exact .inr hf

theorem mono (h : Steady fresh t t') (hf : ∀ id x, id < t.all.size → fresh id x → fresh' id x) :
    Steady fresh' t t' :=
  ⟨h.size, h.parents, h.kept, fun id x hid hb => (h.gained id x hid hb).imp_right (hf id x hid)⟩

theorem bound (h : Steady fresh t t') (hb : (t.binding? id x).isSome) :
    (t'.binding? id x).isSome := by
  obtain ⟨b, hb⟩ := Option.isSome_iff_exists.mp hb
  obtain ⟨b', hb', -⟩ := h.kept id x b hb
  simp [hb']

theorem parent (h : Steady fresh t t') (hp : t.parent? id = some other) :
    t'.parent? id = some other := by
  obtain ⟨scope, hs, -⟩ := Option.bind_eq_some_iff.mp hp
  rw [h.parents id (Array.getElem?_eq_some_iff.mp hs).1, hp]

/-- A new scope changes nothing of the old ones. -/
theorem create (scope : Scope) : Leads (Steady fresh) (Scopes.create scope) := by
  intro t
  rw [create_eq]
  refine ⟨by simp, fun id hid => parent?_push hid, ?_, ?_⟩
  · intro id x b hb
    exact ⟨b, by rwa [ending_ok, binding?_push (lt_size hb)], rfl, fun _ => rfl⟩
  · intro id x hid hb
    rw [ending_ok, binding?_push hid] at hb
    exact .inl hb

theorem define {constant : Bool} (hf : fresh id name) :
    Leads (Steady fresh) (Scopes.define id name value constant) := by
  intro t
  rw [define_eq]
  split
  · exact refl_of (Steady fresh) t
  · rename_i hb
    have binding (other : ScopeId) (x : String) (hid : other < t.all.size) :
        (Scopes.mk (t.all.modify id (·.add name ⟨value, constant⟩))).binding? other x =
          if id = other ∧ x = name then some ⟨value, constant⟩ else t.binding? other x := by
      by_cases here : id = other
      · exact binding?_add (here ▸ hid)
      · simp [binding?, scope?_modify, here]
    refine ⟨by simp, fun _ _ => parent?_add, ?_, ?_⟩
    · intro other x b hx
      rw [ending_ok, binding other x (lt_size hx), if_neg]
      · exact ⟨b, hx, rfl, fun _ => rfl⟩
      · rintro ⟨rfl, rfl⟩
        exact hb (by simp [hx])
    · intro other x hid hx
      rw [ending_ok, binding other x hid] at hx
      split at hx
      · rename_i here
        exact .inr (here.1 ▸ here.2 ▸ hf)
      · exact .inl hx

theorem assignIn : Leads (Steady fresh) (Scopes.assignIn id name value) := by
  intro t
  rw [assignIn_eq]
  split
  · rename_i b hb
    split
    · exact refl_of (Steady fresh) t
    · rename_i hc
      refine ⟨by simp, fun _ _ => parent?_write, ?_, ?_⟩
      · intro other x b' hx
        rw [ending_ok, binding?_write]
        split
        · rename_i here
          obtain ⟨rfl, rfl⟩ := here
          cases hx.symm.trans hb
          exact ⟨{ b with value }, by rw [hx]; rfl, rfl, fun h => absurd h hc⟩
        · exact ⟨b', hx, rfl, fun _ => rfl⟩
      · intro other x _ hx
        rw [ending_ok, binding?_write] at hx
        split at hx
        · exact .inl (by simpa using hx)
        · exact .inl hx
  · exact refl_of (Steady fresh) t

theorem assign : Leads (Steady fresh) (Scopes.assign id name value) := by
  intro t
  rw [assign_eq]
  split
  · exact assignIn t
  · exact refl_of (Steady fresh) t

theorem assignAt {distance : Nat} :
    Leads (Steady fresh) (Scopes.assignAt id distance name value) := by
  intro t
  rw [assignAt_eq]
  split
  · exact assignIn t
  · exact refl_of (Steady fresh) t

end Steady

/-- Reading changes nothing. -/
theorem readIn_leads : Leads Eq (readIn id name) := by
  intro t
  rw [readIn_eq]
  split <;> rfl

theorem read_leads : Leads Eq (read id name) := by
  intro t
  rw [read_eq]
  split
  · exact readIn_leads t
  · rfl

theorem readAt_leads {distance : Nat} : Leads Eq (readAt id distance name) := by
  intro t
  rw [readAt_eq]
  split
  · exact readIn_leads t
  · rfl

end Scopes

end ClassScript
