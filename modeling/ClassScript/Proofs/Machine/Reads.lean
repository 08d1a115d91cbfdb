import ClassScript.Proofs.Machine.Chain

/-! Reading what has a distance. The name is bound in the scope there, since the walk found it
defined, and a run defines names in the order in which the walk does. -/
namespace ClassScript

open Scoping (Place Orderly isUndefined)

namespace Machine

variable {source : List UInt8} {sink : Sink} {program : List Stmt} {now : Moment} {m : Machine}

/-- The reference has a distance, and the scope there has this binding of the name. -/
def Tracked (m : Machine) (id : Nat) (name : String) (b : Binding) : Prop :=
  ∃ d scope, m.resolution.distance? id = some d ∧ m.scopes.ancestor? m.current d = some scope ∧
    m.scopes.binding? scope name = some b

theorem Tracked.lookup {id : Nat} {name : String} {b : Binding} (h : Tracked m id name b)
    (line : Nat) : lookup id name line m = .ok b.value m := by
  obtain ⟨d, scope, hd, hs, hb⟩ := h
  simp only [lookup_eq, hd]
  refine onScopes_ok.mpr ⟨m.scopes, ?_, rfl⟩
  simp only [Scopes.readAt_eq, hs, Scopes.readIn_eq, hb]

namespace Evaluates

variable {r : Resolution} {layout : List (List String)} {P : Place} {e : Expr}
  {reference : Reference}

theorem orderly (h : Evaluates program r layout m P e) : Orderly P.progress.scopes :=
  h.accepted.scopes

/-- A name that the walk found defined is bound in the scope at its distance. -/
theorem tracked (h : Evaluates program r layout m P e) (hr : e.reference? = some reference)
    {d : Nat} (hd : m.resolution.distance? reference.id = some d)
    (hu : isUndefined reference.name P.progress.scopes = false) :
    ∃ b, Tracked m reference.id reference.name b := by
  obtain ⟨names, hn, defined⟩ := h.orderly.defined (h.distance_eq hr ▸ hd) hu
  obtain ⟨scope, _, hs, -, -, bound, -⟩ := h.mirrored.position d names hn
  obtain ⟨b, hb⟩ := Option.isSome_iff_exists.mp (bound _ defined)
  exact ⟨b, d, scope, hd, hs, hb⟩

theorem var_tracked {id : Nat} {name : Token}
    (h : Evaluates program r layout m P (.var id name))
    (hd : (m.resolution.distance? id).isSome) : ∃ b, Tracked m id name.lexeme b := by
  obtain ⟨d, hd⟩ := Option.isSome_iff_exists.mp hd
  exact h.tracked rfl hd (Scoping.var_accepted h.accepted).1

theorem this_tracked {id : Nat} {keyword : Token}
    (h : Evaluates program r layout m P (.thisRef id keyword)) : ∃ b, Tracked m id "this" b := by
  obtain ⟨d, hd, -⟩ := Scoping.this_accepted h.accepted
  exact h.tracked rfl (h.tidy.resolved ▸ hd) (h.orderly.words_defined (.inl rfl))

/-- What `super` is bound to is a class, and `this` is bound with it. -/
theorem super_tracked {id : Nat} {keyword method : Token}
    (h : Evaluates program r layout m P (.superMethod id keyword method)) :
    ∃ c b, Tracked m id "super" ⟨.classRef c, true⟩ ∧ Tracked m id "this" b := by
  obtain ⟨d, hd, -⟩ := Scoping.super_accepted h.accepted
  have hd : m.resolution.distance? id = some d := h.tidy.resolved ▸ hd
  obtain ⟨names, hn, defined⟩ :=
    h.orderly.defined (h.distance_eq rfl ▸ hd) (h.orderly.words_defined (.inr rfl))
  obtain ⟨scope, _, hs, -, -, bound, -⟩ := h.mirrored.position d names hn
  -- the scope of a receiver has both words
  have words := h.orderly.words names (List.mem_of_getElem? hn)
  obtain ⟨known, hk⟩ := Option.isSome_iff_exists.mp (words.receiver (by rw [defined]; rfl))
  have this : names.lookup "this" = some true := by
    cases known with
    | true => exact hk
    | false => exact absurd hk words.this
  obtain ⟨b, hb⟩ := Option.isSome_iff_exists.mp (bound _ this)
  obtain ⟨⟨value, constant⟩, hsuper⟩ := Option.isSome_iff_exists.mp (bound _ defined)
  obtain ⟨rfl, c, rfl⟩ := h.tidy.supers scope _ hsuper
  exact ⟨c, b, ⟨d, scope, hd, hs, hsuper⟩, ⟨d, scope, hd, hs, hb⟩⟩

end Evaluates

theorem found_error {found : Option FoundMethod} {receiver : Value} {cause : RuntimeFault}
    {line : Nat} {stop : Stop} {m' : Machine} (h : (match found with
      | some found => bind found receiver >>= newFunction
      | none => fault cause line : Run Value) m = .error stop m') :
    stop = .error (.fault cause line) := by
  cases found with
  | none =>
    cases h
    rfl
  | some found => cases h

/-- Of a superclass only the method can be missing. -/
theorem superMember_error {id : Nat} {keyword method : Token} {c : Class} {constant : Bool}
    {b : Binding} {stop : Stop} {m' : Machine} (hs : Tracked m id "super" ⟨.classRef c, constant⟩)
    (ht : Tracked m id "this" b) (h : superMember id keyword method m = .error stop m') :
    stop = .error (.fault (.undefinedProperty c.name method.lexeme) method.line) := by
  rw [superMember, bind_of_ok (hs.lookup _), bind_of_ok (ht.lookup _)] at h
  exact found_error h

/-- A variable with a distance is bound there when it is read. A receiver always has a distance and
is bound, and so is the class that `super` stands for; of that only the method can be missing. -/
theorem reads_succeed (h : Happens source sink program now) {e : Expr} (he : now.task = .expr e)
    (depth : Nat) :
    (∀ id name, e = .var id name → (now.machine.resolution.distance? id).isSome →
      ∃ b, Tracked now.machine id name.lexeme b ∧
        evaluate (depth + 1) e now.machine = .ok b.value now.machine) ∧
    (∀ id keyword, e = .thisRef id keyword → ∃ b, Tracked now.machine id "this" b ∧
      evaluate (depth + 1) e now.machine = .ok b.value now.machine) ∧
    ∀ id keyword method, e = .superMethod id keyword method → ∃ c b,
      Tracked now.machine id "super" ⟨.classRef c, true⟩ ∧ Tracked now.machine id "this" b ∧
        ∀ stop m', evaluate (depth + 1) e now.machine = .error stop m' →
          stop = .error (.fault (.undefinedProperty c.name method.lexeme) method.line) := by
  obtain ⟨r, layout, P, ev⟩ := h.evaluates he
  refine ⟨?_, ?_, ?_⟩
  · rintro id name rfl hd
    obtain ⟨b, hb⟩ := ev.var_tracked hd
    exact ⟨b, hb, hb.lookup name.line⟩
  · rintro id keyword rfl
    obtain ⟨b, hb⟩ := ev.this_tracked
    exact ⟨b, hb, hb.lookup keyword.line⟩
  · rintro id keyword method rfl
    obtain ⟨c, b, hs, ht⟩ := ev.super_tracked
    exact ⟨c, b, hs, ht, fun stop m' => superMember_error hs ht⟩

theorem reads_succeed_in_methods :
    (∃ b, Tracked Inherited.inBlock 3 "B" b ∧
      evaluate 1 Inherited.className Inherited.inBlock = .ok b.value Inherited.inBlock) ∧
    (∃ b, Tracked Inherited.inBase 0 "this" b ∧
      evaluate 1 Inherited.receiver Inherited.inBase = .ok b.value Inherited.inBase) ∧
    ∃ c b, Tracked Inherited.inDerived 2 "super" ⟨.classRef c, true⟩ ∧
      Tracked Inherited.inDerived 2 "this" b ∧
      ∀ stop m', evaluate 1 Inherited.inherited Inherited.inDerived = .error stop m' →
        stop = .error (.fault (.undefinedProperty c.name "m") 1) := by
  have tracked : (Inherited.inBlock.resolution.distance? 3).isSome := by
    with_unfolding_all rfl
  refine ⟨?_, ?_, ?_⟩
  · exact (reads_succeed Inherited.className_happens rfl 0).1 3 _ rfl tracked
  · exact (reads_succeed Inherited.receiver_happens rfl 0).2.1 0 _ rfl
  · exact (reads_succeed Inherited.inherited_happens rfl 0).2.2 2 _ _ rfl

end Machine

end ClassScript
