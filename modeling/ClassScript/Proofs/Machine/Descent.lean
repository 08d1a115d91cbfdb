import ClassScript.Proofs.Machine.Kept
import ClassScript.Proofs.Machine.Receivers
import ClassScript.Proofs.Object.Lineage

/-! The classes of a run. A class is declared when those that it descends from are there, and it
gets an identity that is higher than all that were given away before. -/
namespace ClassScript

def Value.class? : Value → Option Class
  | classRef c | object _ c => some c
  | null | bool _ | number _ | string _ | function _ _ => none

namespace Machine

/-- Every routine was made in a scope that there is, and every class is newer than those it descends
from. -/
def Account.dated : Account where
  covers _ := True
  made := placed.made
  family e chain := placed.family e chain ∧
    (e.identities :: chain.map ClassBody.id).Pairwise (· > ·)

theorem Account.dated_lawful : dated.Lawful where
  made_mono := placed_lawful.made_mono
  family_mono hl h := by
    refine ⟨placed_lawful.family_mono hl h.1, List.pairwise_cons.mpr ⟨fun id hid => ?_, h.2.tail⟩⟩
    exact Nat.lt_of_lt_of_le (List.rel_of_pairwise_cons h.2 hid) hl.identities
  made_scope := placed_lawful.made_scope
  method_scope h := placed_lawful.method_scope h.1
  noClass := ⟨placed_lawful.noClass, List.pairwise_singleton _ _⟩
  superclass h := ⟨placed_lawful.superclass h.1,
    h.2.sublist (List.Sublist.cons_cons _ (List.sublist_cons_self _ _))⟩
  function h := h.holds.current
  declared {d name superclass methods statics m e ancestors} h hl ha _ := by
    have there : m.current < e.scopes.all.size := Nat.lt_of_lt_of_le h.holds.current hl.scopes.size
    refine ⟨placed_declared there ha.1, List.pairwise_cons.mpr ⟨?_, ha.2⟩⟩
    intro id hid
    rcases List.mem_cons.mp hid with rfl | hid
    · exact Nat.lt_succ_self _
    · exact Nat.lt_succ_of_lt (List.rel_of_pairwise_cons ha.2 hid)
  bound {_ before _ receiver _ found} _ _ _ _ _ _ := placed_bound before.extent found receiver
  calls _ _ _ _ := trivial

/-- The machine as the task finds it and as it leaves it. -/
def Moment.Sees (now : Moment) (m : Machine) : Prop :=
  m = now.machine ∨ m = ending (perform now.depth now.task now.machine)

def Task.values : Task → List Value
  | apply callee arguments => callee :: arguments
  | invoke _ arguments => arguments
  | _ => []

/-- A class that is within reach of a task. The class or an object of it is what a name or a field
stands for before the task or behind it, is given to the task, or is what an expression comes to; or
a class within reach extends it. -/
inductive InReach (now : Moment) : Class → Prop
  | bound {m id x b c} (hm : now.Sees m) (hb : m.scopes.binding? id x = some b)
    (hc : b.value.class? = some c) : InReach now c
  | field {m id x v c} (hm : now.Sees m) (hv : m.objects.field? id x = some v)
    (hc : v.class? = some c) : InReach now c
  | given {v c} (hv : v ∈ now.task.values) (hc : v.class? = some c) : InReach now c
  | evaluated {e v m c} (he : now.task = .expr e) (hv : evaluate now.depth e now.machine = .ok v m)
    (hc : v.class? = some c) : InReach now c
  | extended {c s} (h : InReach now c) (hs : c.superclass = some s) : InReach now s

section Reach

variable {A : Account} {now : Moment} {sink : Sink} {program : List Stmt} {depth : Nat} {c : Class}

theorem Account.Knows.family {e : Extent} {v : Value} (h : A.Knows e v) (hc : v.class? = some c) :
    A.family e c.chain := by
  cases v with
  | classRef | object =>
    cases hc
    exact h
  | null | bool | number | string | function => cases hc

theorem Account.InOrder.sees (hA : A.Lawful) (h : A.InOrder now) {m : Machine} (hm : now.Sees m) :
    A.Holds m := by
  rcases hm with rfl | rfl
  · exact h.holds
  · exact (hA.sound _ _ _ h).holds

/-- An account knows the classes within reach. -/
theorem Account.InOrder.inReach (hA : A.Lawful) (h : A.InOrder now) (hr : InReach now c) :
    ∃ e, A.family e c.chain := by
  induction hr with
  | bound hm hb hc => exact ⟨_, ((h.sees hA hm).bindings _ _ _ hb).family hc⟩
  | field hm hv hc => exact ⟨_, ((h.sees hA hm).fields _ _ _ hv).family hc⟩
  | @given v _ hv hc =>
    obtain ⟨d, t, m⟩ := now
    have known : A.Knows m.extent v := by
      cases t with
      | apply callee arguments =>
        rcases List.mem_cons.mp hv with rfl | hv
        · exact h.given.1
        · exact h.given.2 v hv
      | invoke code arguments => exact h.given.2 v hv
      | _ => cases hv
    exact ⟨_, known.family hc⟩
  | evaluated he hv hc =>
    obtain ⟨d, t, m⟩ := now
    cases he
    have known := ((hA.sound d).done h hv).2
    exact ⟨_, Knows.family known hc⟩
  | @extended c s _ hs ih =>
    obtain ⟨e, family⟩ := ih
    obtain ⟨body, behind⟩ := c
    cases behind with
    | nil => cases hs
    | cons first behind =>
      cases hs
      exact ⟨e, hA.superclass family⟩

theorem During.dated (hn : During sink program depth now) : Account.dated.InOrder now := by
  have first : Account.dated.InOrder ⟨depth, .stmts program, ((fresh sink).analyze program).2⟩ :=
    ⟨trivial, (Account.fresh_holds _ sink).same rfl rfl rfl rfl, trivial⟩
  exact first.run Account.dated_lawful hn

/-- A class that an account of ages knows has a finite line, and is newer than those behind it. -/
theorem Account.dated_linear {e : Extent} (h : dated.family e c.chain) : c.Linear where
  starts := rfl
  linked := Class.linked_lineage c.chain
  ends _ := Class.superclass_getLast
  newer := by
    rw [Class.ids_line]
    exact h.2.tail

end Reach

end Machine

end ClassScript
