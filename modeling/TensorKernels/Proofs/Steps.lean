/-!
# Steps that may fail

What one step of a computation with a state and errors does when it is run: reading and changing the
state, failing, and going on after a step that has succeeded or failed.
-/

set_option autoImplicit false

namespace TensorKernels

variable {ε σ β γ : Type}

/-- Reading the state keeps it. -/
theorem run_get (s : σ) : (get : EStateM ε σ σ) s = .ok s s := rfl

/-- Changing the state gives the changed state. -/
theorem run_modify (f : σ → σ) (s : σ) : (modify f : EStateM ε σ PUnit) s = .ok ⟨⟩ (f s) := rfl

/-- An error leaves the state as it is. -/
theorem run_throw (e : ε) (s : σ) : (throw e : EStateM ε σ β) s = .error e s := rfl

/-- After a success the next step runs on the new state. -/
theorem bind_of_ok {x : EStateM ε σ β} {f : β → EStateM ε σ γ} {s s' : σ} {b : β}
    (h : x s = .ok b s') : (x >>= f) s = f b s' := by
  simp [bind, EStateM.bind, h]

/-- After an error nothing more runs. -/
theorem bind_of_error {x : EStateM ε σ β} {f : β → EStateM ε σ γ} {s s' : σ} {e : ε}
    (h : x s = .error e s') : (x >>= f) s = .error e s' := by
  simp [bind, EStateM.bind, h]

end TensorKernels
