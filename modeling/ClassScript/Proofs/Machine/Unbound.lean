import ClassScript.Proofs.Machine.Assignments
import ClassScript.Proofs.Machine.Faults

/-! Runs that stop because a name is not bound. Declarations, operators and classes never stop a run
for that; a node that names a binding does, and only if it has no distance or assigns to the name in
the initializer of that very name. -/
namespace ClassScript

open Scoping (Place isUndefined)

namespace Machine

variable {source : List UInt8} {sink : Sink} {program : List Stmt} {now : Moment} {m m' : Machine}
  {name : String} {line : Nat}

/-- The class that a declaration made is assigned to the name that it bound before. -/
theorem classValue_error {d id : Nat} {name : Token} {superclass : Option Expr} {u : Unit}
    {ancestors : List ClassBody} {v : Value} {m₁ m₂ m₃ : Machine} {stop : Stop}
    (hc : m.current < m.scopes.all.size) (hd : define name .null false m = .ok u m₁)
    (ha : evaluateSuperclass d superclass m₁ = .ok ancestors m₂) (hi : newIdentity m₂ = .ok id m₃)
    (h : onScopes line (Scopes.assign m₂.current name.lexeme v) m₃ = .error stop m') :
    stop = .error (.fault (.constant name.lexeme) line) := by
  have bound := define_bound hc hd
  have frame := (perform_frame d (.superclass superclass)).ok ha
  have unchanged := newIdentity_unchanged.ok hi
  rw [← frame.current] at bound
  have bound := unchanged.steady.bound (frame.steady.bound bound)
  obtain ⟨cause, t, hs, rfl⟩ := onScopes_error h
  rcases Scopes.assign_error hs with ⟨-, hh⟩ | rfl
  · rw [Scopes.holder?, if_pos bound] at hh
    cases hh
  · rfl

/-- The node names what is not bound: it has no distance, or it assigns to a name in the initializer
of that name. -/
structure Unbound (program : List Stmt) (now : Moment) (e : Expr) (reference : Reference) :
    Prop where
  task : now.task = .expr e
  names : e.reference? = some reference
  cause : now.machine.resolution.distance? reference.id = none ∨
    ∃ P id name value, e = .assign id name value ∧ VisitedAt program e P ∧
      isUndefined name.lexeme P.progress.scopes = true

/-- Where a run of an accepted program misses a binding, a node is evaluated that names it. -/
theorem Raises.unbound (h : Happens source sink program now)
    (hr : Raises now (.error (.fault (.undefined name) line))) :
    ∃ e reference, Unbound program now e reference ∧ reference.name = name ∧
      reference.line = line := by
  cases hr with
  | @read d m m' id token stop hl =>
    obtain ⟨_, _, P, ev⟩ := h.evaluates rfl
    cases lookup_error hl
    refine ⟨_, ⟨token.lexeme, id, token.line⟩, ⟨rfl, rfl, .inl ?_⟩, rfl, rfl⟩
    by_contra tracked
    obtain ⟨b, hb⟩ := ev.var_tracked (Option.isSome_iff_ne_none.mpr tracked)
    cases (hb.lookup token.line).symm.trans hl
  | @receiver d m m' id keyword stop hl =>
    obtain ⟨_, _, P, ev⟩ := h.evaluates rfl
    obtain ⟨b, hb⟩ := ev.this_tracked
    cases (hb.lookup keyword.line).symm.trans hl
  | superMember hs =>
    obtain ⟨_, _, P, ev⟩ := h.evaluates rfl
    obtain ⟨c, b, hc, hb⟩ := ev.super_tracked
    cases superMember_error hc hb hs
  | @assigned d m m₁ m' id token value v stop hv ha =>
    rcases assign_error ha with hs | hs
    · cases hs
      refine ⟨_, ⟨token.lexeme, id, token.line⟩, ⟨rfl, rfl, ?_⟩, rfl, rfl⟩
      by_cases hd : m.resolution.distance? id = none
      · exact .inl hd
      · obtain ⟨distance, hd⟩ := Option.ne_none_iff_exists'.mp hd
        obtain ⟨_, _, P, ev⟩ := h.evaluates rfl
        obtain ⟨scope, -, -, ends⟩ := ev.assignmentEnds hd hv
        refine .inr ⟨P, id, token, value, rfl, ev.visitedAt rfl, ?_⟩
        by_contra defined
        have failed : evaluate (d + 1) (.assign id token value) m =
            .error (.error (.fault (.undefined token.lexeme) token.line)) m' := by
          rw [evaluate_assign hv, bind_of_error ha]
        obtain ⟨b, -, constant, assigned⟩ := ends.elsewhere (Bool.eq_false_iff.mpr defined)
        cases hc : b.constant with
        | true => cases failed.symm.trans (constant hc)
        | false =>
          obtain ⟨m₂, -, updated⟩ := assigned hc
          cases failed.symm.trans updated
    · cases hs
  | unary hv hc =>
    obtain ⟨c, hc⟩ := Value.applyUnary_error hc
    cases hc
  | binary _ hl hr hc =>
    rcases Value.applyBinary_error hc with hc | ⟨c, hc⟩ <;> cases hc
  | property ho hp =>
    rcases property_error hp with hs | hs <;> cases hs
  | parameters ho hb =>
    obtain ⟨p, -, hs⟩ := bindArguments_error hb
    cases hs
  | printed he hp =>
    obtain ⟨cause, hs⟩ := print_error hp
    cases hs
  | letBinding he hd => cases define_error hd
  | constBinding he hd => cases define_error hd
  | functionBinding hf hd => cases define_error hd
  | classBinding hd => cases define_error hd
  | classValue hd ha hi hs =>
    obtain ⟨layout, ht, _, _, -, standing⟩ := occurs_ready h.analyzed sink h.occurs
    cases classValue_error (standing.lt_size ht) hd ha hi hs

/-- A run stops for want of a binding only at a node that names it. -/
theorem run_unbound {depth : Nat}
    (h : run depth source (fresh sink) = (.failed [.runtime (.fault (.undefined name) line)], m')) :
    ∃ program now e reference, Happens source sink program now ∧
      Unbound program now e reference ∧ reference.name = name ∧ reference.line = line := by
  obtain ⟨program, now, parsed, accepted, occurs, raised⟩ := run_raised h
  have happens : Happens source sink program now := ⟨parsed, accepted, depth, occurs⟩
  obtain ⟨e, reference, unbound, hn, hl⟩ := raised.unbound happens
  exact ⟨program, now, e, reference, happens, unbound, hn, hl⟩

end Machine

end ClassScript
