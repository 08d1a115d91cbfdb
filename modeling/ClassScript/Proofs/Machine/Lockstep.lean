import ClassScript.Proofs.Machine.Composition

/-! A run beside the same run without distances. Only the look-ups of nodes that name a binding ask
for a distance; where these come to the same without one, so does the whole run. -/
namespace ClassScript

namespace Machine

variable {m : Machine} {α β : Type}

/-- The machine without the distances of references. -/
def plain (m : Machine) : Machine := { m with resolution := .empty }

/-- How a step ends, but for the distances of references. -/
def withoutDistances : EStateM.Result Stop Machine α → EStateM.Result Stop Machine α
  | .ok a m => .ok a m.plain
  | .error stop m => .error stop m.plain

/-- The step comes to the same without distances. -/
def Alike (step : Run α) (m : Machine) : Prop := withoutDistances (step m) = step m.plain

namespace Alike

theorem bind {step : Run α} {next : α → Run β} (h : Alike step m)
    (hn : ∀ a m', step m = .ok a m' → Alike (next a) m') : Alike (step >>= next) m := by
  unfold Alike at h ⊢
  cases hs : step m with
  | ok a m' =>
    rw [hs] at h
    rw [bind_of_ok hs, bind_of_ok h.symm]
    exact hn a m' hs
  | error stop m' =>
    rw [hs] at h
    rw [bind_of_error hs, bind_of_error h.symm]
    rfl

/-- A step that reads the machine first, but not its distances. -/
theorem get_bind {next : Machine → Run β} (hn : next m.plain = next m) (h : Alike (next m) m) :
    Alike (get >>= next) m := by
  rw [Alike, ClassScript.get_bind, ClassScript.get_bind, hn]
  exact h

theorem pure (a : α) : Alike (pure a) m := rfl

theorem throw (stop : Stop) : Alike (throw stop : Run α) m := rfl

theorem onScopes (line : Nat) (action : Scopes.Action α) : Alike (onScopes line action) m := by
  have same : m.plain.scopes = m.scopes := rfl
  rw [Alike, onScopes_eq, onScopes_eq, same]
  cases action m.scopes <;> rfl

theorem onSink (action : EStateM SinkFault Sink α) : Alike (onSink action) m := by
  have same : m.plain.sink = m.sink := rfl
  rw [Alike, onSink_eq, onSink_eq, same]
  cases action m.sink <;> rfl

theorem within {scope : ScopeId} {steps : Run α} (h : Alike steps { m with current := scope }) :
    Alike (within scope steps) m := by
  unfold Alike at h
  have inner : ({ m.plain with current := scope } : Machine) = { m with current := scope }.plain :=
    rfl
  rw [Alike, within_eq, within_eq, inner, ← h]
  cases steps { m with current := scope } <;> rfl

end Alike

theorem print_alike (value : Value) : Alike (print value) m :=
  Alike.onSink (Sink.write (Text.encode ((value.toJson m.objects).indented 0 ++ "\n")))

theorem alike_compositional : Compositional @Alike where
  pure a _ := .pure a
  throw stop _ := .throw stop
  bind := Alike.bind
  read hn h := .get_bind (hn _ rfl rfl) h
  onScopes line action _ := .onScopes line action
  within := Alike.within
  newIdentity _ := rfl
  newObject _ _ := rfl
  setField _ _ _ _ := rfl

/-- If the task names a binding, its look-ups come to the same without distances. -/
structure Moment.Agrees (now : Moment) : Prop where
  read : ∀ id name, now.task = .expr (.var id name) →
    Alike (lookup id name.lexeme name.line) now.machine
  receiver : ∀ id keyword, now.task = .expr (.thisRef id keyword) →
    Alike (lookup id "this" keyword.line) now.machine
  superMember : ∀ id keyword method, now.task = .expr (.superMethod id keyword method) →
    Alike (superMember id keyword method) now.machine
  assigned : ∀ depth id name value v m, now.depth = depth + 1 →
    now.task = .expr (.assign id name value) → evaluate depth value now.machine = .ok v m →
      Alike (assign id name v) m

theorem Moment.Agrees.leaves {now : Moment} (h : now.Agrees) : now.Leaves @Alike where
  read := h.read
  receiver := h.receiver
  superMember := h.superMember
  assigned := h.assigned
  printed _ _ v _ _ _ _ := print_alike v

/-- A task comes to the same without distances if the look-ups at all moments that occur for it
do. -/
theorem perform_alike (depth : Nat) (t : Task) (m : Machine)
    (h : ∀ now, Relation.ReflTransGen Calls ⟨depth, t, m⟩ now → now.Agrees) :
    Alike (perform depth t) m :=
  alike_compositional.perform depth t m fun now hn => (h now hn).leaves

end Machine

end ClassScript
