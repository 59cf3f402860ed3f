/-!
# Properties along runs

A machine is a function from states and events to states. What is asked of a run is often a
property of every step: of the state before it and of its event.
-/

namespace RazionOS.Framework

universe u v

variable {σ : Type u} {ε : Type v} {step : σ → ε → σ} {P Q : σ → ε → Prop} {Inv : σ → Prop}
  {s : σ} {events : List ε}

/-- `P` holds of each step of the run from `s`. -/
def Along (step : σ → ε → σ) (P : σ → ε → Prop) : σ → List ε → Prop
  | _, [] => True
  | s, e::events => P s e ∧ Along step P (step s e) events

namespace Along

theorem append (before after : List ε) : Along step P s (before++after) ↔
    Along step P s before ∧ Along step P (before.foldl step s) after := by
  induction before generalizing s with
  | nil => simp [Along]
  | cons e before ih => simp [Along,ih,and_assoc]

section
variable (hst : ∀ s e, Inv s → P s e → Inv (step s e))
include hst

theorem inv (hs : Inv s)
    (h : Along step P s events) : Inv (events.foldl step s) := by
  induction events generalizing s with
  | nil => exact hs
  | cons e events ih => exact ih (hst s e hs h.1) h.2

/-- A property that follows from another one where an invariant holds. -/
theorem imp (hi : ∀ s e, Inv s → P s e → Q s e)
    (hs : Inv s) (h : Along step P s events) : Along step Q s events := by
  induction events generalizing s with
  | nil => trivial
  | cons e events ih => exact ⟨hi s e hs h.1,ih (hst s e hs h.1) h.2⟩

/-- Two properties that agree where an invariant holds, which the steps with them keep. -/
theorem congr (hi : ∀ s e, Inv s → (P s e ↔ Q s e)) (hs : Inv s) :
    Along step P s events ↔ Along step Q s events := by
  induction events generalizing s with
  | nil => rfl
  | cons e events ih =>
    rw [Along,hi s e hs]
    exact and_congr_right fun hQ => ih (hst s e hs ((hi s e hs).2 hQ))

end

end Along

variable {ω τ : Type u} {call : σ → ε → ω × σ} {call' : τ → ε → ω × τ}

def outcomes (call : σ → ε → ω × σ) : σ → List ε → List ω
  | _, [] => []
  | s, e::events => (call s e).1::outcomes call (call s e).2 events

/-- A run whose steps are those of another machine gives the same outcomes. -/
theorem Along.outcomes_eq {f : σ → τ} (h : Along (fun s e => (call s e).2)
      (fun s e => ((call s e).1, f (call s e).2)=call' (f s) e) s events) :
    outcomes call s events=outcomes call' (f s) events := by
  induction events generalizing s with
  | nil => rfl
  | cons e events ih =>
    rw [outcomes,outcomes,← h.1,ih h.2]
end RazionOS.Framework
