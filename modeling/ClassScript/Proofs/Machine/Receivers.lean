import ClassScript.Proofs.Machine.Origins
import ClassScript.Proofs.Machine.Reads
import ClassScript.Proofs.Scoping.Acceptance
import ClassScript.Proofs.Scoping.Positions
import ClassScript.Proofs.Scoping.Unique
import ClassScript.Proofs.Store.Chains

/-! What `this` and `super` mean in a method. Both are found in the scope that was made when the
method was bound, however far from the method and however long after it they are evaluated. -/
namespace ClassScript

open Scoping (Enclosure Stands heritage? lexicalDistance? IsReceiver)

namespace Machine

variable {past : Moment → Prop} {t : Scopes}

/-- Outward from a scope comes that of the nearest method, and it is that of a call of the
method. -/
theorem Lies.nearest {id : ScopeId} {inner outer : List Scoping.Frame} {superclass : Option Expr}
    {isStatic : Bool} {d : FunctionDecl}
    (h : Lies past t id (inner ++ .method superclass isStatic d :: outer))
    (hi : ∀ frame ∈ inner, frame.heritage? = none) :
    ∃ scope code method receiver owner, t.ancestor? id inner.length = some scope ∧
      Runs past t scope code method receiver owner ∧ code.declaration = d ∧
      receiver.isClass = isStatic ∧ owner.superclass.isSome = superclass.isSome := by
  generalize hf : inner ++ .method superclass isStatic d :: outer = frames at h
  induction h generalizing inner with
  | topLevel => simp at hf
  | block around _ ih | function _ around _ ih =>
    cases inner with
    | nil => cases hf
    | cons frame inner =>
      obtain ⟨-, hf⟩ := List.cons.inj hf
      obtain ⟨scope, rest⟩ := ih (fun frame hm => hi frame (List.mem_cons_of_mem _ hm)) hf
      obtain ⟨code, method, receiver, owner, ancestor, rest⟩ := rest
      refine ⟨scope, code, method, receiver, owner, ?_, rest⟩
      rw [List.length_cons, Scopes.ancestor?, around]
      exact ancestor
  | @method id code method receiver owner _ _ runs kind =>
    cases inner with
    | nil =>
      cases hf
      exact ⟨id, code, method, receiver, owner, rfl, runs, rfl, rfl, kind⟩
    | cons frame inner =>
      cases hf
      cases hi _ List.mem_cons_self

variable {source : List UInt8} {sink : Sink} {program : List Stmt} {depth : Nat} {now : Moment}
  {e : Expr}

/-- The moments of the run of a program on a fresh machine that may nest to this depth. -/
def During (sink : Sink) (program : List Stmt) (depth : Nat) : Moment → Prop :=
  Relation.ReflTransGen Calls ⟨depth, .stmts program, ((fresh sink).analyze program).2⟩

/-- The expression stands in a method, in blocks and functions of it, and nowhere else. As many
scopes further out as there are of these is the scope of a call of the method, as it was bound to
the receiver. -/
def InMethod (past : Moment → Prop) (program : List Stmt) (m : Machine) (e : Expr)
    (receiver : Value) (owner : Class) : Prop :=
  ∃ inner superclass declaration front outer scope code method,
    (∀ around, Stands program (.expr e) around ↔
      around = inner ++ ⟨.method superclass receiver.isClass declaration, front⟩ :: outer) ∧
    (∀ c ∈ inner, c.frame.heritage? = none) ∧
    m.scopes.ancestor? m.current inner.length = some scope ∧
    Runs past m.scopes scope code method receiver owner ∧ code.declaration = declaration ∧
    owner.superclass.isSome = superclass.isSome

theorem During.inOrder (hn : During sink program depth now) :
    (origins (During sink program depth) program).InOrder now := by
  have lawful : (origins (During sink program depth) program).Lawful := origins_lawful .tail
  have first : (origins (During sink program depth) program).InOrder
      ⟨depth, .stmts program, ((fresh sink).analyze program).2⟩ := by
    refine ⟨⟨.refl, [], ?_, .topLevel (Nat.lt_succ_self 1)⟩, ?_, trivial⟩
    · intro f hf
      obtain ⟨s, hs, rfl⟩ := List.mem_map.mp hf
      exact .topLevel hs
    · exact (Account.fresh_holds _ sink).same rfl rfl rfl rfl
  exact first.run lawful hn

/-- At a moment of a run the parts of the program lie in the scopes that their frames have. -/
theorem During.lies (hn : During sink program depth now) (he : now.task = .expr e) :
    ∃ frames, StandsIn program (.expr e) frames ∧
      Lies (During sink program depth) now.machine.scopes now.machine.current frames := by
  obtain ⟨-, frames, text, lies⟩ := hn.inOrder.covered
  exact ⟨frames, text _ (by simp [he, Task.fragments]), lies⟩

/-- What stands in a class is evaluated in a call of a method of the class. -/
theorem During.inMethod (hn : During sink program depth now) (he : now.task = .expr e)
    (hd : (identities (Stmt.referencesAll program)).Nodup) {reference : Reference}
    (hr : e.reference? = some reference) (holds : Option Expr → Prop)
    (hs : ∀ around, Stands program (.expr e) around →
      ∃ superclass, heritage? around = some superclass ∧ holds superclass) :
    ∃ receiver owner superclass,
      InMethod (During sink program depth) program now.machine e receiver owner ∧
      owner.superclass.isSome = superclass.isSome ∧ holds superclass := by
  obtain ⟨frames, ⟨around, stands, hf⟩, lies⟩ := hn.lies he
  obtain ⟨superclass, heritage, hh⟩ := hs around stands
  obtain ⟨inner, isStatic, d, front, outer, rfl, hi⟩ := Scoping.heritage?_eq_some heritage
  rw [← hf, List.map_append, List.map_cons] at lies
  have plain : ∀ frame ∈ inner.map Enclosure.frame, frame.heritage? = none := by
    simpa using hi
  obtain ⟨scope, code, method, receiver, owner, ancestor, runs, declaration, rfl, kind⟩ :=
    lies.nearest plain
  rw [List.length_map] at ancestor
  have only : ∀ around, Stands program (.expr e) around ↔
      around = inner ++ ⟨.method superclass receiver.isClass d, front⟩ :: outer :=
    fun around => ⟨fun other => (other.unique stands hd hr hr rfl).2, fun same => same ▸ stands⟩
  exact ⟨receiver, owner, superclass,
    ⟨inner, superclass, d, front, outer, scope, code, method, only,
    hi, ancestor, runs, declaration, kind⟩, kind, hh⟩

/-- In a method the words for a receiver are found around the scope of a call of the method. -/
theorem InMethod.call {past : Moment → Prop} {r : Resolution} {m : Machine} {reference : Reference}
    {receiver : Value} {owner : Class} (h : InMethod past program m e receiver owner)
    (ha : Scoping.Analyzed program r) (hm : m.resolution = r) (hr : e.reference? = some reference)
    (hw : reference.name = "this" ∨ reference.name = "super" ∧ owner.superclass.isSome) :
    ∃ n scope code method, m.resolution.distance? reference.id = some (n + 1) ∧
      m.scopes.ancestor? m.current n = some scope ∧
      Runs past m.scopes scope code method receiver owner := by
  obtain ⟨inner, superclass, d, front, outer, scope, code, method, only, hi, ancestor, runs, -,
      kind⟩ := h
  have stands := (only _).mpr rfl
  obtain ⟨context, scopes, surrounded⟩ := stands.surrounded ha
  have held : ∀ xs ∈ (Scoping.Frame.method superclass receiver.isClass d).receiver,
      reference.name ∈ xs := by
    rcases hw with hw | ⟨hw, hc⟩
    · cases superclass <;> simp [Scoping.Frame.receiver, hw]
    · simp [Scoping.Frame.receiver, hw, ← kind, hc]
  have distance := surrounded.distance_eq ha hr
  rw [Scoping.word_distance (stands.proper ha.proper).2 hi (hw.imp_right And.left) held, ← hm]
    at distance
  exact ⟨inner.length, scope, code, method, distance, ancestor, runs⟩

/-- In a method the words for a receiver stand for what the scope of its receiver holds. -/
theorem InMethod.tracked {past : Moment → Prop} {r : Resolution} {m : Machine}
    {reference : Reference} {receiver : Value} {owner : Class}
    (h : InMethod past program m e receiver owner) (ha : Scoping.Analyzed program r)
    (hm : m.resolution = r) (hr : e.reference? = some reference)
    (hw : reference.name = "this" ∨ reference.name = "super" ∧ owner.superclass.isSome) :
    Tracked m reference.id "this" ⟨receiver, true⟩ ∧
      ∀ c, owner.superclass = some c → Tracked m reference.id "super" ⟨.classRef c, true⟩ := by
  obtain ⟨n, scope, code, method, distance, ancestor, runs⟩ := h.call ha hm hr hw
  have behind : m.scopes.ancestor? m.current (n + 1) = some code.scope := by
    rw [Scopes.ancestor?_succ, ancestor]
    exact runs.around
  exact ⟨⟨_, _, distance, behind, runs.receives.this⟩,
    fun c hc => ⟨_, _, distance, behind, runs.receives.super c hc⟩⟩

theorem superMember_eq {m : Machine} {id : Nat} {keyword method : Token} {c : Class}
    {receiver : Value} (hs : Tracked m id "super" ⟨.classRef c, true⟩)
    (ht : Tracked m id "this" ⟨receiver, true⟩) :
    superMember id keyword method m = (match c.member? receiver method.lexeme with
      | some found => bind found receiver >>= newFunction
      | none => fault (.undefinedProperty c.name method.lexeme) method.line : Run Value) m :=
  superMember_found (hs.lookup _) (ht.lookup _)

/-- In a method `this` is what the method that runs was bound to, wherever and whenever it is
evaluated. What `super` gives is looked up in the class that the owner of this method extends, and
bound to the same receiver. -/
theorem receivers_kept (hp : parse source = .ok program)
    (ha : ((fresh sink).analyze program).1 = []) (hn : During sink program depth now)
    (he : now.task = .expr e) (d : Nat) :
    (∀ id keyword, e = .thisRef id keyword → ∃ receiver owner,
      InMethod (During sink program depth) program now.machine e receiver owner ∧
      evaluate (d + 1) e now.machine = .ok receiver now.machine) ∧
    ∀ id keyword method, e = .superMethod id keyword method → ∃ receiver owner c,
      InMethod (During sink program depth) program now.machine e receiver owner ∧
      owner.superclass = some c ∧
      evaluate (d + 1) e now.machine = (match c.member? receiver method.lexeme with
        | some found => bind found receiver >>= newFunction
        | none => fault (.undefinedProperty c.name method.lexeme) method.line : Run Value)
          now.machine := by
  have happens : Happens source sink program now := ⟨hp, ha, depth, hn⟩
  obtain ⟨r, layout, P, ev⟩ := happens.evaluates he
  have wellFormed := ev.analyzed.wellFormed
  constructor
  · rintro id keyword rfl
    obtain ⟨receiver, owner, -, inside, -⟩ :=
      hn.inMethod he ev.analyzed.distinct rfl (fun _ => True) fun around hs =>
        (Option.isSome_iff_exists.mp (wellFormed.receivers hs)).imp fun _ h => ⟨h, trivial⟩
    have tracked := (inside.tracked ev.analyzed ev.tidy.resolved rfl (.inl rfl)).1
    exact ⟨receiver, owner, inside, tracked.lookup keyword.line⟩
  · rintro id keyword method rfl
    obtain ⟨receiver, owner, superclass, inside, kind, derived⟩ :=
      hn.inMethod he ev.analyzed.distinct rfl (fun superclass => superclass.isSome)
        fun around hs => by
        obtain ⟨extended, heritage⟩ := wellFormed.superclasses hs
        exact ⟨_, heritage, rfl⟩
    obtain ⟨c, hc⟩ := Option.isSome_iff_exists.mp (kind.trans derived)
    obtain ⟨this, super⟩ := inside.tracked ev.analyzed ev.tidy.resolved rfl
      (.inr ⟨rfl, kind.trans derived⟩)
    exact ⟨receiver, owner, c, inside, hc, superMember_eq (super c hc) this⟩

theorem receivers_kept_in_methods :
    (∃ receiver owner, InMethod (During .unlimited Inherited.statements 20) Inherited.statements
        Inherited.inBase Inherited.receiver receiver owner ∧
      evaluate 1 Inherited.receiver Inherited.inBase = .ok receiver Inherited.inBase) ∧
    ∃ receiver owner c, InMethod (During .unlimited Inherited.statements 20) Inherited.statements
        Inherited.inDerived Inherited.inherited receiver owner ∧ owner.superclass = some c ∧
      evaluate 1 Inherited.inherited Inherited.inDerived = (match c.member? receiver "m" with
        | some found => bind found receiver >>= newFunction
        | none => fault (.undefinedProperty c.name "m") 1 : Run Value) Inherited.inDerived :=
  ⟨(receivers_kept Inherited.parsed Inherited.accepted Inherited.receiver_occurs rfl 0).1 0 _ rfl,
    (receivers_kept Inherited.parsed Inherited.accepted
      (Inherited.inherited_occurs.tail .callee) rfl 0).2 2 _ _ rfl⟩

end Machine

end ClassScript
