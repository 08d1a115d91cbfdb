import Mathlib.Order.Defs.Unbundled

/-! Steps on a state that may stop early. A step leads along a relation if the state behind it
stands in the relation to the state before it, whether it stopped or not. -/
namespace ClassScript

variable {ε σ α β : Type} {R S : σ → σ → Prop}

/-- The state behind a step. -/
def ending : EStateM.Result ε σ α → σ
  | .ok _ s | .error _ s => s

@[simp] theorem ending_ok (a : α) (s : σ) : ending (.ok a s : EStateM.Result ε σ α) = s := rfl

@[simp] theorem ending_error (e : ε) (s : σ) : ending (.error e s : EStateM.Result ε σ α) = s := rfl

theorem bind_ok {step : EStateM ε σ α} {next : α → EStateM ε σ β} {s t : σ} {b : β} :
    (step >>= next) s = .ok b t ↔ ∃ a m, step s = .ok a m ∧ next a m = .ok b t := by
  constructor
  · intro h
    simp only [bind, EStateM.bind] at h
    split at h
    case h_1 a m hs => exact ⟨a, m, hs, h⟩
    case h_2 => cases h
  · rintro ⟨a, m, hs, hn⟩
    simp only [bind, EStateM.bind, hs, hn]

/-- A step goes on from where the one before it ended. -/
theorem bind_of_ok {step : EStateM ε σ α} {next : α → EStateM ε σ β} {s m : σ} {a : α}
    (h : step s = .ok a m) : (step >>= next) s = next a m := by
  simp only [bind, EStateM.bind, h]

theorem bind_of_error {step : EStateM ε σ α} {next : α → EStateM ε σ β} {s m : σ} {e : ε}
    (h : step s = .error e m) : (step >>= next) s = .error e m := by
  simp only [bind, EStateM.bind, h]

theorem bind_error {step : EStateM ε σ α} {next : α → EStateM ε σ β} {s t : σ} {e : ε} :
    (step >>= next) s = .error e t ↔
      step s = .error e t ∨ ∃ a m, step s = .ok a m ∧ next a m = .error e t := by
  cases hs : step s with
  | ok a m =>
    rw [bind_of_ok hs]
    constructor
    · exact fun h => .inr ⟨a, m, rfl, h⟩
    · rintro (h | ⟨_, _, h, hn⟩)
      · cases h
      · cases h
        exact hn
  | error e' m =>
    rw [bind_of_error hs]
    constructor
    · intro h
      cases h
      exact .inl rfl
    · rintro (h | ⟨_, _, h, -⟩)
      · cases h
        rfl
      · cases h

/-- What a step comes to, be it an error, is there to go on with. -/
theorem observing_of_ok {step : EStateM ε σ α} {s t : σ} {a : α} (h : step s = .ok a t) :
    observing step s = .ok (.ok a) t := by
  change EStateM.tryCatch _ _ s = _
  delta EStateM.tryCatch
  simp only [bind_of_ok h]
  rfl

theorem observing_of_error {step : EStateM ε σ α} {s t : σ} {e : ε} (h : step s = .error e t) :
    observing step s = .ok (.error e) t := by
  change EStateM.tryCatch _ _ s = _
  delta EStateM.tryCatch
  simp only [bind_of_error h]
  rfl

theorem get_bind {next : σ → EStateM ε σ β} (s : σ) : (get >>= next) s = next s s := rfl

theorem modify_eq (change : σ → σ) (s : σ) :
    (modify change : EStateM ε σ PUnit) s = .ok ⟨⟩ (change s) := rfl

theorem except_bind_ok {x : Except ε α} {f : α → Except ε β} {b : β} :
    (x >>= f) = .ok b ↔ ∃ a, x = .ok a ∧ f a = .ok b := by
  cases x with
  | error e =>
    constructor
    · intro h
      cases h
    · rintro ⟨_, h, -⟩
      cases h
  | ok a =>
    constructor
    · exact fun h => ⟨a, rfl, h⟩
    · rintro ⟨_, h, hf⟩
      cases h
      exact hf

theorem except_bind_error {x : Except ε α} {f : α → Except ε β} {e : ε} :
    (x >>= f) = .error e ↔ x = .error e ∨ ∃ a, x = .ok a ∧ f a = .error e := by
  cases x with
  | error e' =>
    constructor
    · intro h
      cases h
      exact .inl rfl
    · rintro (h | ⟨_, h, -⟩)
      · cases h
        rfl
      · cases h
  | ok a =>
    constructor
    · exact fun h => .inr ⟨a, rfl, h⟩
    · rintro (h | ⟨_, h, hf⟩)
      · cases h
      · cases h
        exact hf

def Leads (R : σ → σ → Prop) (step : EStateM ε σ α) : Prop := ∀ s, R s (ending (step s))

namespace Leads

theorem ok {step : EStateM ε σ α} {s t : σ} {a : α} (h : Leads R step) (hs : step s = .ok a t) :
    R s t := by
  have := h s
  rwa [hs] at this

theorem imp {step : EStateM ε σ α} (h : Leads R step) (himp : ∀ s t, R s t → S s t) :
    Leads S step := fun s => himp _ _ (h s)

/-- A step that reads the state first. -/
theorem get_bind {next : σ → EStateM ε σ β} (h : ∀ s, Leads R (next s)) :
    Leads R (get >>= next) := fun s => h s s

theorem modify {change : σ → σ} (h : ∀ s, R s (change s)) :
    Leads R (modify change : EStateM ε σ PUnit) := h

variable [IsPreorder σ R]

theorem pure (a : α) : Leads R (pure a : EStateM ε σ α) := fun s => refl_of R s

theorem throw (e : ε) : Leads R (throw e : EStateM ε σ α) := fun s => refl_of R s

theorem bind {step : EStateM ε σ α} {next : α → EStateM ε σ β} (h : Leads R step)
    (hn : ∀ a, Leads R (next a)) : Leads R (step >>= next) := by
  intro s
  have hs := h s
  cases hr : step s with
  | ok a m =>
    rw [bind_of_ok hr]
    rw [hr] at hs
    exact trans_of R hs (hn a m)
  | error e m =>
    rw [bind_of_error hr]
    rwa [hr] at hs

end Leads

end ClassScript
