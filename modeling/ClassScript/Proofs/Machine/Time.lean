import ClassScript.Proofs.Machine.Account
import ClassScript.Proofs.Machine.Trace

/-! The moments of a run in the order of time. Of any two moments one is performed within the other,
or has ended when the other begins. Scopes are numbered as they are made, so the scope of a call
tells which call it is, and the scope of a receiver which method was bound. -/
namespace ClassScript

open Relation (ReflTransGen)

namespace Machine

variable {m m' : Machine} {d : Nat}

section Order

variable {now next first a b : Moment}

theorem Calls.later (hc : Calls now next) : now.machine.extent.Later next.machine.extent :=
  (perform_traces now).begun next hc.mem

theorem later_of_calls (h : ReflTransGen Calls now next) :
    now.machine.extent.Later next.machine.extent := by
  induction h with
  | refl => exact refl_of Extent.Later _
  | tail _ hc ih => exact trans_of Extent.Later ih hc.later

/-- When a task has ended, so has all that was performed for it. -/
theorem Moment.Passed.within (h : now.Passed m) (hc : ReflTransGen Calls now next) :
    next.Passed m := by
  induction hc with
  | refl => exact h
  | @tail between last _ hc ih =>
    obtain ⟨v, m', done, later⟩ := ih
    exact ((perform_traces between).ended v m' done last hc.mem).mono later

/-- The moment is performed for the other one, or it has ended when that one begins: it began
first. -/
def Moment.Precedes (now next : Moment) : Prop :=
  (∃ call, Calls now call ∧ ReflTransGen Calls call next) ∨ now.Passed next.machine

/-- Of two moments of a run one began first. -/
theorem timeline (ha : ReflTransGen Calls first a) (hb : ReflTransGen Calls first b) :
    a = b ∨ a.Precedes b ∨ b.Precedes a := by
  induction ha using ReflTransGen.head_induction_on with
  | refl =>
    obtain rfl | ⟨call, hc, rest⟩ := ReflTransGen.cases_head hb
    · exact .inl rfl
    · exact .inr (.inl (.inl ⟨call, hc, rest⟩))
  | @head now call hc ha ih =>
    obtain rfl | ⟨other, ho, hb⟩ := ReflTransGen.cases_head hb
    · exact .inr (.inr (.inl ⟨call, hc, ha⟩))
    by_cases same : call = other
    · exact ih (same ▸ hb)
    -- of two calls of one task the first has ended when the second begins
    have : Std.Symm fun x y : Moment => x.Passed y.machine ∨ y.Passed x.machine :=
      ⟨fun _ _ => Or.symm⟩
    have either : now.calls.Pairwise fun x y => x.Passed y.machine ∨ y.Passed x.machine :=
      (perform_traces now).ordered.imp .inl
    have apart := either.forall hc.mem ho.mem same
    refine .inr (apart.imp (fun passed => .inr ?_) fun passed => .inr ?_)
    · exact (passed.within ha).mono (later_of_calls hb)
    · exact (passed.within hb).mono (later_of_calls ha)

end Order

section Scopes

variable {first now now' : Moment} {before before' : Machine} {c c' : Class}
  {receiver receiver' : Value} {name name' : String} {found found' : FoundMethod}

/-- A call makes a scope as it begins. -/
theorem Moment.Precedes.opened {code : Closure} {arguments : List Value}
    (h : Moment.Precedes ⟨d, .invoke code arguments, m⟩ now) :
    m.scopes.all.size < now.machine.scopes.all.size := by
  have size {scope : ScopeId} {m₁ : Machine} (ho : openScope code.scope [] m = .ok scope m₁) :
      m.scopes.all.size < m₁.scopes.all.size := by
    cases ho
    exact Nat.lt_of_lt_of_eq (Nat.lt_succ_self _) (Array.size_push _).symm
  obtain ⟨call, hc, rest⟩ | ⟨v, m', done, later⟩ := h
  · cases hc with
    | body ho hb =>
      have bound := ((bindArguments_grows _ _ _ _).ok hb).scopes.size
      exact Nat.lt_of_lt_of_le (size ho) (Nat.le_trans bound (later_of_calls rest).scopes.size)
  · cases d with
    | zero => cases done
    | succ d =>
      obtain ⟨scope, m₁, ho, done⟩ := bind_ok.mp done
      obtain ⟨u, m₂, hb, done⟩ := bind_ok.mp done
      obtain ⟨signal, m₃, hw, done⟩ := bind_ok.mp done
      have bound := ((bindArguments_grows _ _ _ _).ok hb).scopes.size
      have body := ((Traces.within (.call (.stmts code.declaration.body))).grows.ok hw).scopes.size
      have ended : m' = m₃ := by
        cases signal <;> cases done <;> rfl
      rw [← ended] at body
      exact Nat.lt_of_lt_of_le (size ho) (Nat.le_trans (Nat.le_trans bound body) later.scopes.size)

/-- A scope is that of one call. -/
theorem opened_once {d' : Nat} {code code' : Closure} {arguments arguments' : List Value}
    (h : ReflTransGen Calls first ⟨d, .invoke code arguments, m⟩)
    (h' : ReflTransGen Calls first ⟨d', .invoke code' arguments', m'⟩)
    (same : m.scopes.all.size = m'.scopes.all.size) :
    Moment.mk d (.invoke code arguments) m = ⟨d', .invoke code' arguments', m'⟩ := by
  obtain equal | earlier | later := timeline h h'
  · exact equal
  · exact absurd same (Nat.ne_of_lt earlier.opened)
  · exact absurd same (Nat.ne_of_gt later.opened)

theorem Binds.later (h : Binds now before c receiver name) :
    now.machine.extent.Later before.extent := by
  cases h with
  | ofObject ho => exact (perform_grows _ _ (.expr _)).ok ho
  | ofClass ho => exact (perform_grows _ _ (.expr _)).ok ho
  | construction ho => exact (newObject_grows _ _).ok ho
  | inherited => exact refl_of Extent.Later _

/-- A task that binds a method has made the scope of the method when it ends. -/
theorem Binds.ended {v : now.task.Result} (h : Binds now before c receiver name)
    (hf : c.member? receiver name = some found)
    (done : perform now.depth now.task now.machine = .ok v m') :
    before.scopes.all.size < m'.scopes.all.size := by
  have room : before.scopes.all.size < (before.scopes.bound found receiver).all.size :=
    Nat.lt_of_lt_of_eq (Nat.lt_succ_self _) (before.scopes.size_bound found receiver).symm
  have bound {result : Option Value} {m₁ : Machine}
      (hb : bindValue (c.member? receiver name) receiver before = .ok result m₁) :
      before.scopes.all.size < m₁.scopes.all.size := by
    rw [hf] at hb
    cases hb
    exact room
  cases h with
  | ofObject ho hn =>
    obtain ⟨object, m₁, hr, done⟩ := bind_ok.mp done
    cases ho.symm.trans hr
    obtain ⟨result, m₂, hm, done⟩ := bind_ok.mp done
    rw [objectMember_eq, hn] at hm
    cases result <;> cases done
    exact bound hm
  | ofClass ho =>
    obtain ⟨object, m₁, hr, done⟩ := bind_ok.mp done
    cases ho.symm.trans hr
    obtain ⟨result, m₂, hm, done⟩ := bind_ok.mp done
    cases result <;> cases done
    exact bound hm
  | @construction d m c arguments object before ho =>
    have constructor : c.constructor? = some found := by
      cases ho
      exact hf
    replace done : apply (d + 1) (.classRef c) arguments m = .ok v m' := done
    rw [apply, bind_of_ok ho, constructor] at done
    obtain ⟨code, m₂, hb, done⟩ := bind_ok.mp done
    obtain ⟨w, m₃, hi, done⟩ := bind_ok.mp done
    cases done
    cases hb
    exact Nat.lt_of_lt_of_le room ((perform_grows _ _ (.invoke _ arguments)).ok hi).scopes.size
  | inherited hs hr =>
    have gives := (superMember_found hs hr).symm.trans done
    rw [hf] at gives
    cases gives
    exact room

/-- What is bound later is bound in a scope with a higher number. -/
theorem Binds.precedes (h : Binds now before c receiver name)
    (hf : c.member? receiver name = some found) (h' : Binds now' before' c' receiver' name')
    (hf' : c'.member? receiver' name' = some found')
    (hp : now.Precedes now') : before.scopes.all.size ≠ before'.scopes.all.size := by
  obtain ⟨call, hc, rest⟩ | ⟨v, m', done, later⟩ := hp
  · -- what is performed to come to an object has ended when a method of the object is bound
    have inside {v : call.task.Result}
        (ho : perform call.depth call.task call.machine = .ok v before) :
        before'.scopes.all.size < before.scopes.all.size := by
      have passed : call.Passed before := ⟨v, before, ho, refl_of Extent.Later _⟩
      obtain ⟨w, m', done, later⟩ := passed.within rest
      exact Nat.lt_of_lt_of_le (h'.ended hf' done) later.scopes.size
    cases h with
    | ofObject ho =>
      cases hc
      exact Nat.ne_of_gt (inside ho)
    | ofClass ho =>
      cases hc
      exact Nat.ne_of_gt (inside ho)
    | construction ho =>
      cases hc with
      | @construct _ _ _ _ _ _ made _ _ ho' _ hb =>
        cases ho.symm.trans ho'
        have begun := (trans_of Extent.Later (later_of_calls rest) h'.later).scopes.size
        cases hb
        have room := Nat.lt_of_lt_of_eq (Nat.lt_succ_self _)
          (before.scopes.size_bound made receiver).symm
        exact Nat.ne_of_lt (Nat.lt_of_lt_of_le room begun)
    | inherited => cases hc
  · have bound := h.ended hf done
    have begun := h'.later.scopes.size
    exact Nat.ne_of_lt (Nat.lt_of_lt_of_le (Nat.lt_of_lt_of_le bound later.scopes.size) begun)

/-- A scope is that of one method that was bound. -/
theorem bound_once (hn : ReflTransGen Calls first now) (hn' : ReflTransGen Calls first now')
    (h : Binds now before c receiver name) (hf : c.member? receiver name = some found)
    (h' : Binds now' before' c' receiver' name') (hf' : c'.member? receiver' name' = some found')
    (same : before.scopes.all.size = before'.scopes.all.size) :
    c = c' ∧ receiver = receiver' ∧ name = name' := by
  obtain rfl | earlier | later := timeline hn hn'
  · cases h with
    | ofObject ho =>
      cases h' with
      | ofObject ho' =>
        cases ho.symm.trans ho'
        exact ⟨rfl, rfl, rfl⟩
      | ofClass ho' => cases ho.symm.trans ho'
    | ofClass ho =>
      cases h' with
      | ofObject ho' => cases ho.symm.trans ho'
      | ofClass ho' =>
        cases ho.symm.trans ho'
        exact ⟨rfl, rfl, rfl⟩
    | construction ho =>
      cases h' with
      | construction ho' =>
        cases ho.symm.trans ho'
        exact ⟨rfl, rfl, rfl⟩
    | inherited hs hr =>
      cases h' with
      | inherited hs' hr' =>
        cases hs.symm.trans hs'
        cases hr.symm.trans hr'
        exact ⟨rfl, rfl, rfl⟩
  · exact absurd same (h.precedes hf h' hf' earlier)
  · exact absurd same.symm (h'.precedes hf' h hf later)

end Scopes

end Machine

end ClassScript
