import ClassScript.Proofs.Machine.Upkeep
import ClassScript.Proofs.Store.Chains

/-! What a step reports when it fails: operators report their operands, and steps on the scopes
report the name, on the line that they are given. -/
namespace ClassScript

namespace Value

variable {operator : Token} {left right v : Value} {cause : RuntimeFault}

theorem applyUnary_error (h : v.applyUnary operator = .error cause) : ∃ c, cause = .operand c := by
  unfold applyUnary at h
  split at h
  · cases h
  · cases h
    exact ⟨_, rfl⟩
  · cases h
  · cases h
  · cases h
    exact ⟨_, rfl⟩

theorem numbers_error (h : numbers operator left right = .error cause) :
    ∃ c, cause = .operand c := by
  unfold numbers at h
  split at h
  · cases h
  · cases h
    exact ⟨_, rfl⟩

theorem add_error (h : add left right = .error cause) : ∃ c, cause = .operand c := by
  unfold add at h
  split at h
  · cases h
  · cases h
  · cases h
  · cases h
    exact ⟨_, rfl⟩

theorem order_error {onNumbers : Float → Float → Bool} {onTexts : String → String → Bool}
    (h : order onNumbers onTexts operator left right = .error cause) :
    ∃ c, cause = .operand c := by
  unfold order at h
  split at h
  · cases h
  · cases h
  · cases h
    exact ⟨_, rfl⟩

theorem divideBy_error {operation : Float → Float → Float}
    (h : divideBy operation operator left right = .error cause) :
    cause = .divisionByZero ∨ ∃ c, cause = .operand c := by
  rcases except_bind_error.mp h with h | ⟨⟨x, y⟩, -, h⟩
  · exact .inr (numbers_error h)
  · dsimp only at h
    split at h
    · cases h
      exact .inl rfl
    · cases h

/-- Beside division by zero only the operands can be at fault. -/
theorem applyBinary_error (h : left.applyBinary operator right = .error cause) :
    cause = .divisionByZero ∨ ∃ c, cause = .operand c := by
  unfold applyBinary at h
  split at h
  case h_1 => exact .inr (add_error h)
  case h_2 | h_3 =>
    rcases except_bind_error.mp h with h | ⟨⟨x, y⟩, -, h⟩
    · exact .inr (numbers_error h)
    · cases h
  case h_4 | h_5 => exact divideBy_error h
  case h_6 | h_7 => cases h
  case h_12 =>
    cases h
    exact .inr ⟨_, rfl⟩
  all_goals exact .inr (order_error h)

end Value

namespace Scopes

variable {t t' : Scopes} {id holder : ScopeId} {name : String} {v : Value} {cause : RuntimeFault}

theorem define_error {constant : Bool} (h : define id name v constant t = .error cause t') :
    cause = .duplicate name := by
  rw [define_eq] at h
  split at h
  · cases h
    rfl
  · cases h

theorem assignIn_error (h : assignIn id name v t = .error cause t') :
    (cause = .undefined name ∧ t.binding? id name = none) ∨ cause = .constant name := by
  rw [assignIn_eq] at h
  split at h
  · split at h
    · cases h
      exact .inr rfl
    · cases h
  · cases h
    exact .inl ⟨rfl, ‹_›⟩

/-- The nearest scope is at fault for want of the name only if there is none. -/
theorem assign_error (h : assign id name v t = .error cause t') :
    (cause = .undefined name ∧ t.holder? name id = none) ∨ cause = .constant name := by
  rw [assign_eq] at h
  split at h
  · rename_i holder hh
    rcases assignIn_error h with ⟨-, hb⟩ | hc
    · have := holder?_binds hh
      simp [hb] at this
    · exact .inr hc
  · cases h
    exact .inl ⟨rfl, ‹_›⟩

theorem assignAt_error {distance : Nat} (h : assignAt id distance name v t = .error cause t') :
    cause = .undefined name ∨ cause = .constant name := by
  rw [assignAt_eq] at h
  split at h
  · exact (assignIn_error h).imp_left And.left
  · cases h
    exact .inl rfl

theorem readIn_error (h : readIn id name t = .error cause t') : cause = .undefined name := by
  rw [readIn_eq] at h
  split at h <;> cases h
  rfl

theorem readAt_error {distance : Nat} (h : readAt id distance name t = .error cause t') :
    cause = .undefined name := by
  rw [readAt_eq] at h
  split at h
  · exact readIn_error h
  · cases h
    rfl

theorem read_error (h : read id name t = .error cause t') : cause = .undefined name := by
  rw [read_eq] at h
  split at h
  · exact readIn_error h
  · cases h
    rfl

end Scopes

namespace Machine

variable {m m' : Machine} {stop : Stop} {id line : Nat} {name : Token} {v : Value}

theorem onScopes_error {α : Type} {action : Scopes.Action α}
    (h : onScopes line action m = .error stop m') :
    ∃ cause t, action m.scopes = .error cause t ∧ stop = .error (.fault cause line) := by
  rw [onScopes_eq] at h
  split at h
  · cases h
  · rename_i cause t ha
    cases h
    exact ⟨cause, t, ha, rfl⟩

theorem lookup_error {x : String} (h : lookup id x line m = .error stop m') :
    stop = .error (.fault (.undefined x) line) := by
  rw [lookup_eq] at h
  split at h
  · obtain ⟨cause, t, ha, rfl⟩ := onScopes_error h
    rw [Scopes.readAt_error ha]
  · obtain ⟨cause, t, ha, rfl⟩ := onScopes_error h
    rw [Scopes.read_error ha]

theorem assign_error (h : assign id name v m = .error stop m') :
    stop = .error (.fault (.undefined name.lexeme) name.line) ∨
      stop = .error (.fault (.constant name.lexeme) name.line) := by
  rw [assign_eq] at h
  split at h
  · obtain ⟨cause, t, ha, rfl⟩ := onScopes_error h
    rcases Scopes.assignAt_error ha with rfl | rfl
    · exact .inl rfl
    · exact .inr rfl
  · obtain ⟨cause, t, ha, rfl⟩ := onScopes_error h
    rcases Scopes.assign_error ha with ⟨rfl, -⟩ | rfl
    · exact .inl rfl
    · exact .inr rfl

theorem define_error {constant : Bool} (h : define name v constant m = .error stop m') :
    stop = .error (.fault (.duplicate name.lexeme) name.line) := by
  obtain ⟨cause, t, ha, rfl⟩ := onScopes_error (define_eq .. ▸ h)
  rw [Scopes.define_error ha]

theorem bindArguments_error {scope : ScopeId} {params : List Token} {arguments : List Value}
    (h : bindArguments scope params arguments m = .error stop m') :
    ∃ p ∈ params, stop = .error (.fault (.duplicate p.lexeme) p.line) := by
  induction params generalizing arguments m with
  | nil => cases h
  | cons p ps ih =>
    cases arguments with
    | nil => cases h
    | cons a as =>
      rcases bind_error.mp h with h | ⟨_, _, -, h⟩
      · obtain ⟨cause, t, ha, rfl⟩ := onScopes_error h
        rw [Scopes.define_error ha]
        exact ⟨p, by simp, rfl⟩
      · obtain ⟨q, hq, hs⟩ := ih h
        exact ⟨q, by simp [hq], hs⟩

theorem onSink_error {α : Type} {action : EStateM SinkFault Sink α}
    (h : onSink action m = .error stop m') : ∃ cause, stop = .error (.output cause) := by
  simp only [onSink] at h
  split at h
  · cases h
  · cases h
    exact ⟨_, rfl⟩

theorem print_error (h : print v m = .error stop m') : ∃ cause, stop = .error (.output cause) := by
  rcases bind_error.mp h with h | ⟨_, _, -, h⟩
  · cases h
  · exact onSink_error h

theorem bindValue_error {found : Option FoundMethod} {receiver : Value} :
    bindValue found receiver m ≠ .error stop m' := by
  cases found <;> exact fun h => by cases h

theorem answer_error {found : Option Value} {cause : RuntimeFault} (h : (match found with
      | some value => return value
      | none => fault cause line : Run Value) m = .error stop m') :
    stop = .error (.fault cause line) := by
  cases found <;> cases h
  rfl

theorem property_error (h : property v name m = .error stop m') :
    stop = .error (.fault (.propertyTarget v.display) name.line) ∨
      stop = .error (.fault (.undefinedProperty v.display name.lexeme) name.line) := by
  cases v with
  | object id c =>
    rcases bind_error.mp h with h | ⟨found, m₁, -, h⟩
    · rw [objectMember_eq] at h
      split at h
      · cases h
      · exact absurd h bindValue_error
    · exact .inr (answer_error h)
  | classRef c =>
    rcases bind_error.mp h with h | ⟨found, m₁, -, h⟩
    · exact absurd h bindValue_error
    · exact .inr (answer_error h)
  | null | bool | number | string | function =>
    cases h
    exact .inl rfl

end Machine

end ClassScript
