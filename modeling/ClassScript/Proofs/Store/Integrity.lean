import ClassScript.Proofs.Store.Steady
import Mathlib.Logic.Relation
import Mathlib.Data.List.Nodup

/-! A store of scopes in good order. The scope around a scope is an older one, so that the links
come to an end, and a scope binds a name once, so that no name is both a variable and a constant. -/
namespace ClassScript

namespace Scope

variable {scope scope' : Scope} {name : String} {value : Value} {b : Binding}

/-- The names that can be assigned to, with their values. -/
def values (scope : Scope) : List (String × Value) :=
  scope.bindings.filterMap fun (name, b) => if b.constant then none else some (name, b.value)

def constants (scope : Scope) : List (String × Value) :=
  scope.bindings.filterMap fun (name, b) => if b.constant then some (name, b.value) else none

def Distinct (scope : Scope) : Prop := (scope.bindings.map Prod.fst).Nodup

theorem mem_values :
    (name, value) ∈ scope.values ↔ (name, ⟨value, false⟩) ∈ scope.bindings := by
  simp only [values, List.mem_filterMap]
  constructor
  · rintro ⟨⟨x, v, constant⟩, hm, he⟩
    cases constant <;> simp_all
  · exact fun h => ⟨_, h, rfl⟩

theorem mem_constants :
    (name, value) ∈ scope.constants ↔ (name, ⟨value, true⟩) ∈ scope.bindings := by
  simp only [constants, List.mem_filterMap]
  constructor
  · rintro ⟨⟨x, v, constant⟩, hm, he⟩
    cases constant <;> simp_all
  · exact fun h => ⟨_, h, rfl⟩

theorem mem_of_find? (h : scope.find? name = some b) : (name, b) ∈ scope.bindings := by
  obtain ⟨front, behind, hb, -⟩ := List.lookup_eq_some_iff.mp h
  simp [hb]

/-- Where names are distinct, every binding is the one that is found. -/
theorem Distinct.find? (h : scope.Distinct) (hm : (name, b) ∈ scope.bindings) :
    scope.find? name = some b := by
  obtain ⟨front, behind, hb⟩ := List.append_of_mem hm
  refine List.lookup_eq_some_iff.mpr ⟨front, behind, hb, ?_⟩
  rintro ⟨other, b'⟩ ho
  rw [Distinct, hb, List.map_append, List.map_cons] at h
  have apart := (List.nodup_append.mp h).2.2 other (List.mem_map_of_mem ho) name List.mem_cons_self
  exact bne_iff_ne.mpr (Ne.symm apart)

theorem Distinct.add (h : scope.Distinct) (hn : scope.find? name = none) :
    (scope.add name b).Distinct := by
  refine List.nodup_cons.mpr ⟨?_, h⟩
  intro hm
  obtain ⟨⟨_, b'⟩, he, rfl⟩ := List.mem_map.mp hm
  cases (h.find? he).symm.trans hn

theorem Distinct.write (h : scope.Distinct) : (scope.write name value).Distinct := by
  have same : (scope.write name value).bindings.map Prod.fst = scope.bindings.map Prod.fst := by
    simp only [Scope.write, List.map_map]
    refine List.map_congr_left fun entry _ => ?_
    simp only [Function.comp_apply]
    split <;> rfl
  rwa [Distinct, same]

/-- What a later state of a scope has of an earlier one: the scope around it, the names of its
variables, and its constants with their values. -/
structure Continues (scope scope' : Scope) : Prop where
  parent : scope'.parent = scope.parent
  values : ∀ name value, (name, value) ∈ scope.values → ∃ value', (name, value') ∈ scope'.values
  constants : scope.constants ⊆ scope'.constants

end Scope

namespace Scopes

variable {t t' : Scopes} {id parent : ScopeId} {name : String} {value : Value}

/-- No scope has a name both as a variable and as a constant. -/
def Exclusive (t : Scopes) : Prop :=
  ∀ id scope, t.scope? id = some scope → ∀ name v w,
    (name, v) ∈ scope.values → (name, w) ∉ scope.constants

/-- No scope lies around itself. -/
def Acyclic (t : Scopes) : Prop :=
  ∀ id, ¬ Relation.TransGen (fun inner outer => t.parent? inner = some outer) id id

/-- Every scope goes on. -/
def Continues (t t' : Scopes) : Prop :=
  ∀ id scope, t.scope? id = some scope → ∃ scope', t'.scope? id = some scope' ∧
    scope.Continues scope'

structure WellFormed (t : Scopes) : Prop where
  outward : ∀ id parent, t.parent? id = some parent → parent < id
  distinct : ∀ id scope, t.scope? id = some scope → scope.Distinct

namespace WellFormed

theorem exclusive (h : t.WellFormed) : t.Exclusive := by
  intro id scope hs name v w hv hw
  have distinct := h.distinct id scope hs
  cases (distinct.find? (Scope.mem_values.mp hv)).symm.trans
    (distinct.find? (Scope.mem_constants.mp hw))

theorem acyclic (h : t.WellFormed) : t.Acyclic := by
  have older {inner outer : ScopeId}
      (hp : Relation.TransGen (fun inner outer => t.parent? inner = some outer) inner outer) :
      outer < inner := by
    induction hp with
    | single hp => exact h.outward _ _ hp
    | tail _ hp ih => exact Nat.lt_trans (h.outward _ _ hp) ih
  exact fun id hp => Nat.lt_irrefl id (older hp)

theorem push (h : t.WellFormed) {scope : Scope} (hp : ∀ parent ∈ scope.parent, parent < t.all.size)
    (hd : scope.Distinct) : (Scopes.mk (t.all.push scope)).WellFormed := by
  constructor
  · intro id parent hi
    rw [parent?, scope?_push] at hi
    split at hi
    · rename_i he
      exact he ▸ hp parent hi
    · exact h.outward id parent hi
  · intro id scope' hs
    rw [scope?_push] at hs
    split at hs
    · cases hs
      exact hd
    · exact h.distinct id scope' hs

theorem change (h : t.WellFormed) {change : Scope → Scope}
    (hp : ∀ scope, (change scope).parent = scope.parent)
    (hd : ∀ scope, t.scope? id = some scope → (change scope).Distinct) :
    (Scopes.mk (t.all.modify id change)).WellFormed := by
  constructor
  · intro other parent hi
    rw [parent?_modify hp] at hi
    exact h.outward other parent hi
  · intro other scope hs
    rw [scope?_modify] at hs
    split at hs
    · rename_i here
      obtain ⟨old, ho, rfl⟩ := Option.map_eq_some_iff.mp hs
      exact hd old (here ▸ ho)
    · exact h.distinct other scope hs

theorem define (h : t.WellFormed) {constant : Bool} :
    (ending (Scopes.define id name value constant t)).WellFormed := by
  rw [define_eq]
  split
  · exact h
  · rename_i hb
    refine h.change (fun _ => rfl) fun scope hs => ?_
    have unbound : scope.find? name = none := by
      rw [binding?, hs] at hb
      simpa using hb
    exact (h.distinct id scope hs).add unbound

theorem assignIn (h : t.WellFormed) : (ending (Scopes.assignIn id name value t)).WellFormed := by
  rw [assignIn_eq]
  split
  · split
    · exact h
    · exact h.change (fun _ => rfl) fun scope hs => (h.distinct id scope hs).write
  · exact h

end WellFormed

section Bindings

variable {other : ScopeId} {x : String} {b : Binding}

/-- What a scope binds after a declaration it bound before, or it is what was declared. -/
theorem binding?_of_define {constant : Bool} (hid : id < t.all.size)
    (h : (ending (define id name value constant t)).binding? other x = some b) :
    t.binding? other x = some b ∨ b.value = value := by
  rw [define_eq] at h
  split at h
  · exact .inl h
  · rw [ending_ok, binding?_add hid] at h
    split at h
    · cases h
      exact .inr rfl
    · exact .inl h

theorem binding?_of_assignIn
    (h : (ending (assignIn id name value t)).binding? other x = some b) :
    t.binding? other x = some b ∨ b.value = value := by
  rw [assignIn_eq] at h
  split at h
  · split at h
    · exact .inl h
    · rw [ending_ok, binding?_write] at h
      split at h
      · obtain ⟨b₀, -, rfl⟩ := Option.map_eq_some_iff.mp h
        exact .inr rfl
      · exact .inl h
  · exact .inl h

end Bindings

/-- What a steady store keeps of its look-ups is what it keeps of its scopes. -/
theorem Steady.continues {fresh : ScopeId → String → Prop} (h : t.Steady fresh t')
    (hw : t.WellFormed) : t.Continues t' := by
  intro id scope hs
  have hid : id < t.all.size := (Array.getElem?_eq_some_iff.mp hs).1
  obtain ⟨scope', hs'⟩ : ∃ scope', t'.scope? id = some scope' :=
    Option.ne_none_iff_exists'.mp (mt scope?_eq_none.mp
      (Nat.not_le.mpr (Nat.lt_of_lt_of_le hid h.size)))
  have distinct := hw.distinct id scope hs
  have found {name : String} {b : Binding} (hm : (name, b) ∈ scope.bindings) :
      ∃ b', (name, b') ∈ scope'.bindings ∧ b'.constant = b.constant ∧
        (b.constant = true → b'.value = b.value) := by
    obtain ⟨b', hb', rest⟩ := h.kept id name b (by rw [binding?, hs]; exact distinct.find? hm)
    rw [binding?, hs'] at hb'
    exact ⟨b', Scope.mem_of_find? hb', rest⟩
  refine ⟨scope', hs', ?_, ?_, ?_⟩
  · have parent := h.parents id hid
    rwa [parent?, parent?, hs, hs'] at parent
  · intro name value hv
    obtain ⟨⟨value', constant⟩, hm, rfl, -⟩ := found (Scope.mem_values.mp hv)
    exact ⟨value', Scope.mem_values.mpr hm⟩
  · rintro ⟨name, value⟩ hc
    obtain ⟨⟨value', constant⟩, hm, rfl, hv⟩ := found (Scope.mem_constants.mp hc)
    obtain rfl : value' = value := hv rfl
    exact Scope.mem_constants.mpr hm

end Scopes

end ClassScript
