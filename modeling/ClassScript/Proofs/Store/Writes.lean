import ClassScript.Proofs.Store.Chains
import ClassScript.Proofs.Store.Integrity

/-! Writing to a store of scopes. Whatever the store is made of, the search outward and the distance
of the nearest binding agree, and a write changes one binding of one scope: a name means something
else afterwards only where its nearest binding is the one that was written. -/
namespace ClassScript

namespace Scopes

/-- An operation that writes to a store through one of its scopes. -/
inductive Write
  | define (id : ScopeId) (name : String) (value : Value) (constant : Bool)
  | assign (id : ScopeId) (name : String) (value : Value)
  | assignAt (id : ScopeId) (distance : Nat) (name : String) (value : Value)

namespace Write

def perform : Write → Action Unit
  | define id name value constant => Scopes.define id name value constant
  | assign id name value => Scopes.assign id name value
  | assignAt id distance name value => Scopes.assignAt id distance name value

/-- The scope that it goes through. -/
def scope : Write → ScopeId
  | define id .. | assign id .. | assignAt id .. => id

def name : Write → String
  | define _ name .. | assign _ name _ | assignAt _ _ name _ => name

/-- The binding that it leaves. -/
def binding : Write → Binding
  | define _ _ value constant => ⟨value, constant⟩
  | assign _ _ value | assignAt _ _ _ value => ⟨value, false⟩

/-- The scope is the one whose binding is written: a declaration binds a name in its own scope,
which did not bind it, and an assignment finds a variable in the nearest scope that binds the name
or in the one at the distance. -/
def Hits (t : Scopes) (holder : ScopeId) : Write → Prop
  | define id name _ _ => holder = id ∧ t.binding? holder name = none
  | assign id name _ => (∃ d, t.Nearest id name d holder) ∧
    ∃ old, t.binding? holder name = some ⟨old, false⟩
  | assignAt id distance name _ => t.ancestor? id distance = some holder ∧
    ∃ old, t.binding? holder name = some ⟨old, false⟩

end Write

/-- What can be made of an empty store: scopes inside others or inside none, and writes, which may
fail. -/
inductive Built : Scopes → Prop
  | empty : Built .empty
  | outermost {t : Scopes} (h : Built t) : Built (ending (create ⟨[], none⟩ t))
  | inside {t : Scopes} {p : ScopeId} (h : Built t) (hp : p < t.all.size) :
    Built (ending (create ⟨[], some p⟩ t))
  | written {t : Scopes} (h : Built t) (w : Write) : Built (ending (w.perform t))

variable {t t' : Scopes} {id holder scope : ScopeId} {name x : String} {value : Value} {d : Nat}
  {b : Binding}

/-- A write leaves a store in good order. -/
theorem WellFormed.written (h : t.WellFormed) (w : Write) : (ending (w.perform t)).WellFormed := by
  cases w with
  | define => exact h.define
  | assign id name value =>
    rw [Write.perform, assign_eq]
    split
    · exact h.assignIn
    · exact h
  | assignAt id distance name value =>
    rw [Write.perform, assignAt_eq]
    split
    · exact h.assignIn
    · exact h

theorem Built.wellFormed (h : Built t) : t.WellFormed := by
  induction h with
  | empty => exact ⟨nofun, nofun⟩
  | outermost _ ih => exact ih.push nofun .nil
  | inside _ hp ih =>
    refine ih.push ?_ .nil
    rintro parent ⟨⟩
    exact hp
  | written _ w ih => exact ih.written w

theorem Built.outward (h : Built t) : t.Outward := h.wellFormed.outward

/-- The stores differ in one binding of one scope, and the later one has this one. -/
structure Changes (t t' : Scopes) (holder : ScopeId) (name : String) (b : Binding) : Prop where
  size : t'.all.size = t.all.size
  parents : ∀ id, t'.parent? id = t.parent? id
  written : t'.binding? holder name = some b
  others : ∀ id x, id ≠ holder ∨ x ≠ name → t'.binding? id x = t.binding? id x

namespace Changes

theorem ofAdd (hid : id < t.all.size) :
    Changes t ⟨t.all.modify id (·.add name b)⟩ id name b where
  size := Array.size_modify
  parents _ := parent?_add
  written := by rw [binding?_add hid, if_pos ⟨rfl, rfl⟩]
  others other x apart := by
    rw [binding?_add hid, if_neg]
    rintro ⟨rfl, rfl⟩
    simp at apart

theorem ofWrite {old : Value} {constant : Bool} (h : t.binding? id name = some ⟨old, constant⟩) :
    Changes t ⟨t.all.modify id (·.write name value)⟩ id name ⟨value, constant⟩ where
  size := Array.size_modify
  parents _ := parent?_write
  written := by rw [binding?_write, if_pos ⟨rfl, rfl⟩, h]; rfl
  others other x apart := by
    rw [binding?_write, if_neg]
    rintro ⟨rfl, rfl⟩
    simp at apart

variable (h : Changes t t' holder name b)

include h

theorem ancestor? : t'.ancestor? id d = t.ancestor? id d := by
  induction d generalizing id with
  | zero => rfl
  | succ d ih =>
    rw [Scopes.ancestor?, Scopes.ancestor?, h.parents]
    exact congrArg _ (funext fun _ => ih)

theorem outward (ht : t.Outward) : t'.Outward := by
  intro id parent hp
  rw [h.parents] at hp
  exact ht id parent hp

/-- What is unbound afterwards was unbound before. -/
theorem unbound_before (hb : ¬ (t'.binding? id x).isSome) : t'.binding? id x = t.binding? id x := by
  refine h.others id x ?_
  by_contra same
  obtain ⟨rfl, rfl⟩ : id = holder ∧ x = name := by simpa using same
  rw [h.written] at hb
  exact hb rfl

/-- The nearest binding of a name is one that was its nearest binding before, unless it is the one
that was written. -/
theorem nearest_before (hn : t'.Nearest id x d scope) (apart : scope ≠ holder ∨ x ≠ name) :
    t.Nearest id x d scope := by
  refine ⟨h.ancestor?.symm.trans hn.ancestor, h.others scope x apart ▸ hn.bound, ?_⟩
  intro i hi s hs
  have unbound := hn.nearer i hi s (h.ancestor?.trans hs)
  exact h.unbound_before unbound ▸ unbound

/-- A write to a binding that there was changes no nearest binding. -/
theorem nearest_rebound (hn : t'.Nearest id name d holder) (hb : (t.binding? holder name).isSome) :
    t.Nearest id name d holder := by
  refine ⟨h.ancestor?.symm.trans hn.ancestor, hb, ?_⟩
  intro i hi s hs
  have unbound := hn.nearer i hi s (h.ancestor?.trans hs)
  exact h.unbound_before unbound ▸ unbound

theorem never_before (hu : t'.Unbound id x) : t.Unbound id x := by
  intro i s hs
  have unbound := hu i s (h.ancestor?.trans hs)
  exact h.unbound_before unbound ▸ unbound

end Changes

/-- What a name means in a scope. -/
def value? (t : Scopes) (id : ScopeId) (name : String) : Except RuntimeFault Value :=
  match read id name t with
  | .ok value _ => .ok value
  | .error cause _ => .error cause

theorem value?_of_nearest (ht : t.Outward) (h : t.Nearest id name d holder)
    (hb : t.binding? holder name = some b) : t.value? id name = .ok b.value := by
  rw [value?, h.reads ht hb]

theorem value?_of_unbound (ht : t.Outward) (h : t.Unbound id name) :
    t.value? id name = .error (.undefined name) := by
  rw [value?, h.read ht]

/-- A name means the same as before where its nearest binding is not the one that was written. -/
theorem Changes.value? (h : Changes t t' holder name b) (ht : t.Outward)
    (apart : x = name → ∀ d, ¬ t'.Nearest id name d holder) : t'.value? id x = t.value? id x := by
  rcases holder?_cases (h.outward ht) id x with ⟨d, scope, nearest, -⟩ | ⟨unbound, -⟩
  · have elsewhere : scope ≠ holder ∨ x ≠ name := by
      by_contra same
      obtain ⟨rfl, rfl⟩ : scope = holder ∧ x = name := by simpa using same
      exact apart rfl d nearest
    obtain ⟨b', hb'⟩ := Option.isSome_iff_exists.mp nearest.bound
    rw [value?_of_nearest (h.outward ht) nearest hb',
      value?_of_nearest ht (h.nearest_before nearest elsewhere) (h.others scope x elsewhere ▸ hb')]
  · rw [value?_of_unbound (h.outward ht) unbound, value?_of_unbound ht (h.never_before unbound)]

/-- An assignment in one scope leaves the value in a variable, or the store as it was. -/
theorem assignIn_cases (id : ScopeId) (name : String) (value : Value) (t : Scopes) :
    (∃ cause, assignIn id name value t = .error cause t) ∨
      ∃ t' old, assignIn id name value t = .ok () t' ∧ t.binding? id name = some ⟨old, false⟩ ∧
        Changes t t' id name ⟨value, false⟩ := by
  rw [assignIn_eq]
  cases hb : t.binding? id name with
  | none => exact .inl ⟨_, rfl⟩
  | some b =>
    obtain ⟨old, constant⟩ := b
    cases constant with
    | true => exact .inl ⟨_, rfl⟩
    | false => exact .inr ⟨_, old, rfl, rfl, .ofWrite hb⟩

/-- A write that fails changes nothing, and one that succeeds changes the binding that it hits. -/
theorem Write.perform_cases (ht : t.Outward) (w : Write) (inside : w.scope < t.all.size) :
    (∃ cause, w.perform t = .error cause t) ∨
      ∃ t' holder, w.perform t = .ok () t' ∧ w.Hits t holder ∧
        Changes t t' holder w.name w.binding := by
  cases w with
  | define id name value constant =>
    rw [perform, define_eq]
    cases hb : t.binding? id name with
    | some b => exact .inl ⟨_, rfl⟩
    | none => exact .inr ⟨_, id, rfl, ⟨rfl, hb⟩, .ofAdd inside⟩
  | assign id name value =>
    rw [perform, assign_eq]
    rcases holder?_cases ht id name with ⟨d, holder, nearest, found⟩ | ⟨-, found⟩
    · rw [found]
      exact (assignIn_cases holder name value t).imp_right
        fun ⟨t', old, done, hb, hc⟩ => ⟨t', holder, done, ⟨⟨d, nearest⟩, old, hb⟩, hc⟩
    · rw [found]
      exact .inl ⟨_, rfl⟩
  | assignAt id distance name value =>
    rw [perform, assignAt_eq]
    cases hs : t.ancestor? id distance with
    | none => exact .inl ⟨_, rfl⟩
    | some holder =>
      exact (assignIn_cases holder name value t).imp_right
        fun ⟨t', old, done, hb, hc⟩ => ⟨t', holder, done, ⟨hs, old, hb⟩, hc⟩

/-- In whatever store can be made, a name is read and assigned to alike by the search outward and at
the distance of its nearest binding, and not at all where there is none. A write that fails changes
nothing. One that succeeds changes one binding, and a name means something else only where that
binding is the nearest, as it was before unless it is new. -/
theorem access_agrees_and_writes_are_local (built : Built t) :
    (∀ id name,
      (∀ d holder, t.Nearest id name d holder →
        (∃ b, t.binding? holder name = some b ∧ read id name t = .ok b.value t) ∧
        read id name t = readAt id d name t ∧
        ∀ value, assign id name value t = assignAt id d name value t) ∧
      (t.Unbound id name →
        read id name t = .error (.undefined name) t ∧
        (∀ value, assign id name value t = .error (.undefined name) t) ∧
        ∀ d, readAt id d name t = .error (.undefined name) t ∧
          ∀ value, assignAt id d name value t = .error (.undefined name) t)) ∧
    ∀ w : Write, w.scope < t.all.size →
      (∀ cause t', w.perform t = .error cause t' → t' = t) ∧
      ∀ t', w.perform t = .ok () t' → ∃ holder, w.Hits t holder ∧
        Changes t t' holder w.name w.binding ∧
        (∀ id d, t'.Nearest id w.name d holder → t'.value? id w.name = .ok w.binding.value) ∧
        ∀ id x, t'.value? id x ≠ t.value? id x → x = w.name ∧ ∃ d, t'.Nearest id x d holder ∧
          (t.Nearest id x d holder ∨ t.binding? holder x = none) := by
  have outward := built.outward
  refine ⟨fun id name => ⟨fun d holder nearest => ?_, fun unbound => ?_⟩, fun w inside => ⟨?_, ?_⟩⟩
  · obtain ⟨b, hb⟩ := Option.isSome_iff_exists.mp nearest.bound
    exact ⟨⟨b, hb, nearest.reads outward hb⟩, nearest.read outward, fun _ => nearest.assign outward⟩
  · exact ⟨unbound.read outward, fun _ => unbound.assign outward,
      fun _ => ⟨unbound.readAt, fun _ => unbound.assignAt⟩⟩
  · intro cause t' failed
    obtain ⟨_, same⟩ | ⟨_, _, done, -⟩ := w.perform_cases outward inside
    · cases same.symm.trans failed
      rfl
    · cases done.symm.trans failed
  · intro t' succeeded
    obtain ⟨_, failed⟩ | ⟨_, holder, done, hits, changes⟩ := w.perform_cases outward inside
    · cases failed.symm.trans succeeded
    cases done.symm.trans succeeded
    refine ⟨holder, hits, changes, fun id d nearest => ?_, fun id x differs => ?_⟩
    · exact value?_of_nearest (changes.outward outward) nearest changes.written
    · obtain ⟨rfl, d, nearest⟩ : x = w.name ∧ ∃ d, t'.Nearest id w.name d holder := by
        by_contra apart
        exact differs (changes.value? outward fun same d nearest => apart ⟨same, d, nearest⟩)
      refine ⟨rfl, d, nearest, ?_⟩
      by_cases hb : (t.binding? holder w.name).isSome
      · exact .inl (changes.nearest_rebound nearest hb)
      · exact .inr (Option.not_isSome_iff_eq_none.mp hb)

/-- A constant inside hides a variable of the scope around it: from the innermost scope the search
stops at the constant, and an assignment through the scope beside it reaches the variable. -/
theorem shadowed_access_agrees :
    let t : Scopes := ⟨#[⟨[("x", ⟨.bool true, false⟩)], none⟩, ⟨[("x", ⟨.null, true⟩)], some 0⟩,
      ⟨[], some 1⟩, ⟨[], some 0⟩]⟩
    let w : Write := .assign 3 "x" (.bool false)
    Built t ∧ t.Nearest 2 "x" 1 1 ∧ read 2 "x" t = readAt 2 1 "x" t ∧ t.Unbound 2 "y" ∧
      readAt 2 7 "y" t = .error (.undefined "y") t ∧ w.scope < t.all.size ∧
      ∃ t', w.perform t = .ok () t' ∧ Changes t t' 0 "x" ⟨.bool false, false⟩ := by
  intro t w
  have built : Built t :=
    .written (.written (.inside (.inside (.inside (.outermost .empty) (p := 0) (by decide))
      (p := 1) (by decide)) (p := 0) (by decide)) (.define 0 "x" (.bool true) false))
      (.define 1 "x" .null true)
  have one (id holder : ScopeId) (hs : t.ancestor? id 1 = some holder)
      (hb : (t.binding? holder "x").isSome) (hn : ¬ (t.binding? id "x").isSome) :
      t.Nearest id "x" 1 holder := by
    refine ⟨hs, hb, fun i hi scope hs => ?_⟩
    obtain rfl : i = 0 := Nat.lt_one_iff.mp hi
    cases hs
    exact hn
  have inner : t.Nearest 2 "x" 1 1 := one 2 1 rfl rfl (by decide)
  have outer : t.Nearest 3 "x" 1 0 := one 3 0 rfl rfl (by decide)
  have outermost : t.Unbound 0 "y" := .outermost (by decide) rfl
  have middle : t.Unbound 1 "y" := outermost.outer (by decide) rfl
  have unbound : t.Unbound 2 "y" := middle.outer (by decide) rfl
  have inside : w.scope < t.all.size := by decide
  have found : t.holder? "x" 3 = some 0 := holder?_of_nearest built.outward outer
  have done : w.perform t = assignIn 0 "x" (.bool false) t := assign_eq.trans (by rw [found])
  obtain ⟨access, writes⟩ := access_agrees_and_writes_are_local built
  obtain ⟨holder, ⟨⟨d, nearest⟩, -⟩, changes, -⟩ := (writes w inside).2 _ (done.trans rfl)
  cases (holder?_of_nearest built.outward nearest).symm.trans found
  exact ⟨built, inner, ((access 2 "x").1 1 1 inner).2.1, unbound,
    (((access 2 "y").2 unbound).2.2 7).1, inside, _, done, changes⟩

end Scopes

end ClassScript
