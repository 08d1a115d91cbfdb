import ClassScript.Proofs.Machine.Frame
import ClassScript.Proofs.Scoping.Found

/-! Scopes of a run that mirror those of the walk. Each scope of a run has the names that its place
in the program declares; a chain of scopes mirrors the scopes around a place if it has one scope for
each of them, with every name bound that is defined there. A routine stored anywhere was made in
such a chain. -/
namespace ClassScript

open Scoping (Names Found receiverNames receiverWords ClassKind)

/-- The scopes of a run, with the names that each of them declares in all. -/
structure World where
  layout : List (List String)
  scopes : Scopes

namespace World

variable {w w' w'' : World}

/-- Scopes are added and keep what they have. -/
structure Grows (w w' : World) : Prop where
  layout : w.layout <+: w'.layout
  steady : w.scopes.Steady (fun _ _ => True) w'.scopes

theorem Grows.refl (w : World) : w.Grows w := ⟨List.prefix_refl _, refl_of (Scopes.Steady _) _⟩

theorem Grows.trans (h : w.Grows w') (h' : w'.Grows w'') : w.Grows w'' :=
  ⟨h.layout.trans h'.layout, trans_of (Scopes.Steady _) h.steady h'.steady⟩

theorem Grows.laid (h : w.Grows w') {id : ScopeId} {names : List String}
    (hl : w.layout[id]? = some names) : w'.layout[id]? = some names := by
  obtain ⟨more, hm⟩ := h.layout
  rw [← hm, List.getElem?_append_left (List.getElem?_eq_some_iff.mp hl).1, hl]

end World

/-- The chain of scopes from `id` up to the top level, position by position the scopes around a
place. -/
inductive Mirrors (w : World) : List (List String) → List Names → ScopeId → Prop
  | topLevel : Mirrors w [] [] Machine.topLevel
  | inside {id parent : ScopeId} {declared : List String} {names : Names}
    {outerDeclared : List (List String)} {outer : List Names} (above : Machine.topLevel < id)
    (laid : w.layout[id]? = some declared)
    (defined : ∀ x, names.lookup x = some true → (w.scopes.binding? id x).isSome)
    (around : w.scopes.parent? id = some parent) (outward : Mirrors w outerDeclared outer parent) :
    Mirrors w (declared :: outerDeclared) (names :: outer) id

namespace Mirrors

variable {w w' : World} {declared : List (List String)} {scopes : List Names} {id : ScopeId}

theorem mono (hg : w.Grows w') (h : Mirrors w declared scopes id) :
    Mirrors w' declared scopes id := by
  induction h with
  | topLevel => exact .topLevel
  | inside above laid defined around _ ih =>
    exact .inside above (hg.laid laid) (fun x hx => hg.steady.bound (defined x hx))
      (hg.steady.parent around) ih

/-- What mirrors the scopes of the walk at a position. -/
theorem position (h : Mirrors w declared scopes id) {d : Nat} {names : Names}
    (hn : scopes[d]? = some names) :
    ∃ scope found, w.scopes.ancestor? id d = some scope ∧ Machine.topLevel < scope ∧
      declared[d]? = some found ∧ w.layout[scope]? = some found ∧
      ∀ x, names.lookup x = some true → (w.scopes.binding? scope x).isSome := by
  induction h generalizing d with
  | topLevel => cases hn
  | @inside id parent _ _ _ _ above laid defined around outward ih =>
    cases d with
    | zero =>
      cases hn
      exact ⟨id, _, rfl, above, rfl, laid, defined⟩
    | succ d =>
      obtain ⟨scope, found, hs, rest⟩ := ih hn
      refine ⟨scope, found, ?_, rest⟩
      rw [Scopes.ancestor?, around]
      exact hs

/-- Behind them all is the top level. -/
theorem outermost (h : Mirrors w declared scopes id) :
    w.scopes.ancestor? id scopes.length = some Machine.topLevel := by
  induction h with
  | topLevel => rfl
  | @inside id parent _ _ _ _ _ _ _ around _ ih =>
    rw [List.length_cons, Scopes.ancestor?, around]
    exact ih

end Mirrors

section Values

variable (program : List Stmt) (w : World)

/-- A routine in a scope that mirrors the scopes where the walk finds the routine. -/
def ClosureOk (code : Closure) : Prop :=
  ∃ declared scopes, Found program (.routine code.declaration) declared scopes ∧
    Mirrors w declared scopes code.scope

/-- The kind of a class with these ancestors. -/
def ancestry : List ClassBody → ClassKind
  | [] => .base
  | _ :: _ => .derived

/-- A method in the scope of its class, around which it still needs the scope of a receiver. -/
def MethodOk (cls : ClassKind) (code : Closure) : Prop :=
  ∃ declared scopes, Found program (.routine code.declaration) (receiverWords cls :: declared)
    (receiverNames cls :: scopes) ∧ Mirrors w declared scopes code.scope

/-- Classes, nearest first, whose methods are in order. -/
def ChainOk : List ClassBody → Prop
  | [] => True
  | body :: ancestors =>
    (∀ entry ∈ body.methods ++ body.statics, MethodOk program w (ancestry ancestors) entry.2) ∧
      ChainOk ancestors

def ValueOk : Value → Prop
  | .function _ code => ClosureOk program w code
  | .classRef c | .object _ c => ChainOk program w c.chain
  | .null | .bool _ | .number _ | .string _ => True

/-- A method that was looked up, with the class that `super` stands for in it. -/
structure MethodFound (found : FoundMethod) : Prop where
  method : MethodOk program w (if found.superclass.isSome then .derived else .base) found.method
  superclass : ∀ c ∈ found.superclass, ChainOk program w c.chain

end Values

section Values

variable {program : List Stmt} {w w' : World}

theorem ClosureOk.mono (hg : w.Grows w') {code : Closure} (h : ClosureOk program w code) :
    ClosureOk program w' code := by
  obtain ⟨declared, scopes, hf, hm⟩ := h
  exact ⟨declared, scopes, hf, hm.mono hg⟩

theorem MethodOk.mono (hg : w.Grows w') {cls : ClassKind} {code : Closure}
    (h : MethodOk program w cls code) : MethodOk program w' cls code := by
  obtain ⟨declared, scopes, hf, hm⟩ := h
  exact ⟨declared, scopes, hf, hm.mono hg⟩

theorem ChainOk.mono (hg : w.Grows w') {chain : List ClassBody} (h : ChainOk program w chain) :
    ChainOk program w' chain := by
  induction chain with
  | nil => trivial
  | cons body ancestors ih => exact ⟨fun entry he => (h.1 entry he).mono hg, ih h.2⟩

theorem ValueOk.mono (hg : w.Grows w') {v : Value} (h : ValueOk program w v) :
    ValueOk program w' v := by
  cases v with
  | function id code => exact ClosureOk.mono hg h
  | classRef c | object id c => exact ChainOk.mono hg h
  | null | bool | number | string => trivial

/-- A method found along a chain is one of its classes', and what `super` stands for is the rest. -/
theorem findIn_found {table : ClassBody → MethodTable} {name : String} {chain : List ClassBody}
    {found : FoundMethod} (ht : ∀ body, table body ⊆ body.methods ++ body.statics)
    (h : ChainOk program w chain) (hf : Class.findIn table name chain = some found) :
    MethodFound program w found := by
  induction chain with
  | nil => cases hf
  | cons body ancestors ih =>
    rw [Class.findIn] at hf
    split at hf
    · rename_i method hl
      cases hf
      obtain ⟨before, behind, hb, -⟩ := List.lookup_eq_some_iff.mp hl
      have own := h.1 (name, method) (ht body (by simp [hb]))
      refine ⟨?_, ?_⟩ <;> cases ancestors
      · exact own
      · exact own
      · intro c hc
        cases hc
      · intro c hc
        cases hc
        exact h.2
    · exact ih h.2 hf

theorem findMethod?_found {c : Class} {name : String} {found : FoundMethod}
    (h : ChainOk program w c.chain) (hf : c.findMethod? name = some found) :
    MethodFound program w found :=
  findIn_found (fun _ => List.subset_append_left _ _) h hf

theorem findStatic?_found {c : Class} {name : String} {found : FoundMethod}
    (h : ChainOk program w c.chain) (hf : c.findStatic? name = some found) :
    MethodFound program w found :=
  findIn_found (fun _ => List.subset_append_right _ _) h hf

end Values

namespace Machine

/-- The state of a run between its steps. Every scope below the top level binds only names that it
declares, every value in reach is in order, and what `super` is bound to is a class. -/
structure Tidy (program : List Stmt) (r : Resolution) (layout : List (List String)) (m : Machine) :
    Prop where
  size : layout.length = m.scopes.all.size
  top : topLevel < m.scopes.all.size
  base : m.scopes.parent? topLevel = some globals
  outward : ∀ id parent, m.scopes.parent? id = some parent → parent < id
  within : ∀ id x, topLevel < id → (m.scopes.binding? id x).isSome →
    ∃ names, layout[id]? = some names ∧ x ∈ names
  values : ∀ id x b, m.scopes.binding? id x = some b → ValueOk program ⟨layout, m.scopes⟩ b.value
  fields : ∀ id x v, m.objects.field? id x = some v → ValueOk program ⟨layout, m.scopes⟩ v
  supers : ∀ id b, m.scopes.binding? id "super" = some b →
    b.constant = true ∧ ∃ c, b.value = .classRef c
  resolved : m.resolution = r

/-- The world of a machine. -/
abbrev world (layout : List (List String)) (m : Machine) : World := ⟨layout, m.scopes⟩

namespace Tidy

variable {program : List Stmt} {r : Resolution} {layout : List (List String)} {m m' : Machine}
  {declared : List (List String)} {scopes : List Names} {id scope parent : ScopeId}

theorem lt_size (ht : Tidy program r layout m)
    (hm : Mirrors (world layout m) declared scopes id) : id < m.scopes.all.size := by
  cases hm with
  | topLevel => exact ht.top
  | inside _ laid => exact ht.size ▸ (List.getElem?_eq_some_iff.mp laid).1

/-- A machine whose scopes, fields and distances are the same is as tidy. -/
theorem same (ht : Tidy program r layout m) (hs : m'.scopes = m.scopes)
    (ho : m'.objects = m.objects) (hr : m'.resolution = m.resolution) :
    Tidy program r layout m' := by
  obtain ⟨size, top, base, outward, within, values, fields, supers, resolved⟩ := ht
  exact ⟨hs ▸ size, hs ▸ top, hs ▸ base, hs ▸ outward, hs ▸ within, hs ▸ values,
    ho ▸ hs ▸ fields, hs ▸ supers, hr.trans resolved⟩

section Open

variable {bindings : List (String × Binding)} {names : List String}

/-- A new scope that declares `names` and binds some of them. -/
structure Opens (program : List Stmt) (layout : List (List String)) (m : Machine)
    (bindings : List (String × Binding)) (names : List String) : Prop where
  declared : ∀ x, (bindings.lookup x).isSome → x ∈ names
  values : ∀ x b, bindings.lookup x = some b → ValueOk program (world layout m) b.value
  supers : ∀ b, bindings.lookup "super" = some b → b.constant = true ∧ ∃ c, b.value = .classRef c

theorem Opens.nil : Opens program layout m [] names := ⟨by simp, by simp, by simp⟩

theorem Opens.of_entries (hn : bindings.map Prod.fst = names)
    (hv : ∀ entry ∈ bindings, ValueOk program (world layout m) entry.2.value)
    (hs : ∀ entry ∈ bindings, entry.1 = "super" →
      entry.2.constant = true ∧ ∃ c, entry.2.value = .classRef c) :
    Opens program layout m bindings names := by
  have entry {x : String} {b : Binding} (h : bindings.lookup x = some b) : (x, b) ∈ bindings := by
    obtain ⟨before, behind, hb, -⟩ := List.lookup_eq_some_iff.mp h
    simp [hb]
  refine ⟨?_, fun x b h => hv _ (entry h), fun b h => hs _ (entry h) rfl⟩
  intro x h
  obtain ⟨b, h⟩ := Option.isSome_iff_exists.mp h
  exact hn ▸ List.mem_map_of_mem (entry h)

theorem openScope_eq (parent : ScopeId) (bindings : List (String × Binding)) (m : Machine) :
    openScope parent bindings m = .ok m.scopes.all.size
      { m with scopes := ⟨m.scopes.all.push ⟨bindings, some parent⟩⟩ } := rfl

/-- What is known of the machine with the new scope. -/
structure Opened (program : List Stmt) (r : Resolution) (layout : List (List String)) (m : Machine)
    (parent : ScopeId) (bindings : List (String × Binding)) (names : List String) (scope : ScopeId)
    (m' : Machine) : Prop where
  tidy : Tidy program r (layout ++ [names]) m'
  grows : (world layout m).Grows (world (layout ++ [names]) m')
  above : topLevel < scope
  laid : (layout ++ [names])[scope]? = some names
  around : m'.scopes.parent? scope = some parent
  binding : ∀ x, m'.scopes.binding? scope x = bindings.lookup x

theorem opened (ht : Tidy program r layout m) (hp : parent < m.scopes.all.size)
    (hb : Opens program layout m bindings names) (ho : openScope parent bindings m = .ok scope m') :
    Opened program r layout m parent bindings names scope m' := by
  have grows : (world layout m).Grows ⟨layout ++ [names],
      ⟨m.scopes.all.push ⟨bindings, some parent⟩⟩⟩ :=
    ⟨List.prefix_append _ _, Scopes.Steady.create _ m.scopes⟩
  rw [openScope_eq] at ho
  cases ho
  have binding (other : ScopeId) (x : String) {b : Binding}
      (h : (Scopes.mk (m.scopes.all.push ⟨bindings, some parent⟩)).binding? other x = some b) :
      m.scopes.binding? other x = some b ∨
        (other = m.scopes.all.size ∧ bindings.lookup x = some b) := by
    have hlt := Scopes.lt_size h
    rw [Array.size_push] at hlt
    rcases Nat.lt_or_eq_of_le (Nat.le_of_lt_succ hlt) with hlt | rfl
    · exact .inl (by rwa [Scopes.binding?_push hlt] at h)
    · exact .inr ⟨rfl, by rwa [Scopes.binding?_push_new] at h⟩
  have laid : (layout ++ [names])[m.scopes.all.size]? = some names := by simp [← ht.size]
  refine ⟨⟨?_, ?_, ?_, ?_, ?_, ?_, ?_, ?_, ht.resolved⟩, grows, ht.top, laid, ?_, ?_⟩
  · simp [ht.size]
  · rw [Array.size_push]
    exact Nat.lt_succ_of_lt ht.top
  · rw [Scopes.parent?_push ht.top, ht.base]
  · intro other outer h
    by_cases hlt : other < m.scopes.all.size
    · rw [Scopes.parent?_push hlt] at h
      exact ht.outward other outer h
    · rw [Scopes.parent?, Scopes.scope?_push] at h
      split at h
      · rename_i he
        cases h
        exact he ▸ hp
      · rw [Scopes.scope?_eq_none.mpr (Nat.not_lt.mp hlt)] at h
        cases h
  · intro other x above h
    obtain ⟨b, hbound⟩ := Option.isSome_iff_exists.mp h
    rcases binding other x hbound with old | ⟨rfl, new⟩
    · obtain ⟨found, hl, hx⟩ := ht.within other x above (by simp [old])
      exact ⟨found, grows.laid hl, hx⟩
    · exact ⟨names, laid, hb.declared x (by rw [new]; rfl)⟩
  · intro other x b h
    rcases binding other x h with h | ⟨-, h⟩
    · exact (ht.values other x b h).mono grows
    · exact (hb.values x b h).mono grows
  · exact fun other x v h => (ht.fields other x v h).mono grows
  · intro other b h
    rcases binding other "super" h with h | ⟨-, h⟩
    · exact ht.supers other b h
    · exact hb.supers b h
  · exact Scopes.parent?_push_new
  · exact fun x => Scopes.binding?_push_new

/-- The new scope mirrors a new scope of the walk. -/
theorem Opened.mirrors (h : Opened program r layout m parent bindings names scope m')
    (hm : Mirrors (world layout m) declared scopes parent) {known : Names}
    (hk : ∀ x, known.lookup x = some true → (bindings.lookup x).isSome) :
    Mirrors (world (layout ++ [names]) m') (names :: declared) (known :: scopes) scope :=
  .inside h.above h.laid (fun x hx => by rw [h.binding]; exact hk x hx) h.around (hm.mono h.grows)

end Open

section Change

variable {name : String} {value : Value} {constant : Bool} {t : Scopes}

/-- A name is bound that the scope declares. -/
theorem define (ht : Tidy program r layout m) (hid : id < m.scopes.all.size)
    (hn : topLevel < id → ∃ names, layout[id]? = some names ∧ name ∈ names) (hs : name ≠ "super")
    (hd : Scopes.define id name value constant m.scopes = .ok () t)
    (hv : ValueOk program ⟨layout, t⟩ value) : Tidy program r layout { m with scopes := t } := by
  have grows : (world layout m).Grows ⟨layout, t⟩ :=
    ⟨List.prefix_refl _, (Scopes.Steady.define trivial).ok hd⟩
  rw [Scopes.define_eq] at hd
  split at hd
  · cases hd
  cases hd
  refine ⟨?_, ?_, ?_, ?_, ?_, ?_, ?_, ?_, ht.resolved⟩
  · simpa using ht.size
  · simpa using ht.top
  · rw [Scopes.parent?_add, ht.base]
  · intro other outer h
    rw [Scopes.parent?_add] at h
    exact ht.outward other outer h
  · intro other x above h
    rw [Scopes.binding?_add hid] at h
    split at h
    · rename_i here
      obtain ⟨rfl, rfl⟩ := here
      exact hn above
    · exact ht.within other x above h
  · intro other x b h
    rw [Scopes.binding?_add hid] at h
    split at h
    · cases h
      exact hv
    · exact (ht.values other x b h).mono grows
  · exact fun other x v h => (ht.fields other x v h).mono grows
  · intro other b h
    rw [Scopes.binding?_add hid, if_neg fun here => hs here.2.symm] at h
    exact ht.supers other b h

/-- A variable gets another value. -/
theorem assignIn (ht : Tidy program r layout m)
    (ha : Scopes.assignIn id name value m.scopes = .ok () t)
    (hv : ValueOk program (world layout m) value) :
    Tidy program r layout { m with scopes := t } := by
  have grows : (world layout m).Grows ⟨layout, t⟩ :=
    ⟨List.prefix_refl _, Scopes.Steady.assignIn.ok ha⟩
  rw [Scopes.assignIn_eq] at ha
  split at ha
  case h_2 => cases ha
  case h_1 written hw =>
  split at ha
  · cases ha
  rename_i hc
  cases ha
  refine ⟨?_, ?_, ?_, ?_, ?_, ?_, ?_, ?_, ht.resolved⟩
  · simpa using ht.size
  · simpa using ht.top
  · rw [Scopes.parent?_write, ht.base]
  · intro other outer h
    rw [Scopes.parent?_write] at h
    exact ht.outward other outer h
  · intro other x above h
    rw [Scopes.binding?_write] at h
    split at h
    · exact ht.within other x above (by simpa using h)
    · exact ht.within other x above h
  · intro other x b h
    rw [Scopes.binding?_write] at h
    split at h
    · obtain ⟨b₀, -, rfl⟩ := Option.map_eq_some_iff.mp h
      exact hv.mono grows
    · exact (ht.values other x b h).mono grows
  · exact fun other x v h => (ht.fields other x v h).mono grows
  · intro other b h
    rw [Scopes.binding?_write] at h
    split at h
    · rename_i here
      obtain ⟨rfl, rfl⟩ := here
      exact absurd (ht.supers id written hw).1 hc
    · exact ht.supers other b h

end Change

/-- A field gets a value. -/
theorem setField (ht : Tidy program r layout m) {name : String} {value : Value}
    (hv : ValueOk program (world layout m) value) :
    Tidy program r layout { m with objects := m.objects.set id name value } := by
  refine ⟨ht.size, ht.top, ht.base, ht.outward, ht.within, ht.values, ?_, ht.supers, ht.resolved⟩
  intro other x v h
  rcases Objects.field?_set h with rfl | h
  · exact hv
  · exact ht.fields other x v h

/-- An object without fields is made. -/
theorem newObject (ht : Tidy program r layout m) :
    Tidy program r layout { m with objects := m.objects.push } :=
  ⟨ht.size, ht.top, ht.base, ht.outward, ht.within, ht.values,
    fun other x v h => ht.fields other x v (Objects.field?_push h), ht.supers, ht.resolved⟩

end Tidy

end Machine

end ClassScript
