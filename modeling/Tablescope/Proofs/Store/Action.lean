import Tablescope.Proofs.Except
import Tablescope.Store.Action

/-!
# What actions come to

One action after another succeeds if both do, and fails if either does, the second from where the
first has left the state. What an action *keeps* is a view of the state that is the same before and
after, whether or not the action succeeds.
-/

namespace Tablescope.Action

variable {σ α β γ : Type}

theorem bind_of_ok {x : Action σ α} {f : α → Action σ β} {s t : σ} {a : α}
    (h : x s = (.ok a, t)) : (x >>= f) s = f a t := by
  rw [bind_apply, h]

theorem bind_eq_ok_iff {x : Action σ α} {f : α → Action σ β} {s u : σ} {b : β} :
    (x >>= f) s = (.ok b, u) ↔ ∃ a t, x s = (.ok a, t) ∧ f a t = (.ok b, u) := by
  rw [bind_apply]
  rcases x s with ⟨e | a, t⟩
  · simp
  · constructor
    · exact fun h => ⟨a, t, rfl, h⟩
    · rintro ⟨_, _, ⟨⟩, h⟩
      exact h

theorem bind_eq_error_iff {x : Action σ α} {f : α → Action σ β} {s u : σ} {e : Error} :
    (x >>= f) s = (.error e, u) ↔
      x s = (.error e, u) ∨ ∃ a t, x s = (.ok a, t) ∧ f a t = (.error e, u) := by
  rw [bind_apply]
  rcases x s with ⟨e' | a, t⟩
  · simp
  · constructor
    · exact fun h => .inr ⟨a, t, rfl, h⟩
    · rintro (⟨⟨⟩⟩ | ⟨_, _, ⟨⟩, h⟩)
      exact h

theorem ofExcept_eq_ok_iff {r : Except Error α} {s t : σ} {a : α} :
    ofExcept r s = (.ok a, t) ↔ r = .ok a ∧ s = t := by
  simp [ofExcept]

theorem ofInput_eq_ok_iff {r : Except InputError α} {s t : σ} {a : α} :
    ofInput r s = (.ok a, t) ↔ r = .ok a ∧ s = t := by
  cases r <;> simp [ofInput, ofExcept]

theorem ofInput_eq_error_iff {r : Except InputError α} {s t : σ} {e : Error} :
    ofInput r s = (.error e, t) ↔ (∃ fault, r = .error fault ∧ .input fault = e) ∧ s = t := by
  cases r <;> simp [ofInput, ofExcept]

/-! ### Views of the state -/

/-- Whether an action leaves a view of the state as it is. -/
def Keeps (view : σ → γ) (x : Action σ α) : Prop := ∀ s, view (x s).2 = view s

variable {view : σ → γ}

theorem keeps_pure (a : α) : Keeps view (pure a : Action σ α) := fun _ => rfl

theorem keeps_fail (e : Error) : Keeps view (fail e : Action σ α) := fun _ => rfl

theorem keeps_ofExcept (r : Except Error α) : Keeps view (ofExcept r : Action σ α) := fun _ => rfl

theorem keeps_ofInput (r : Except InputError α) : Keeps view (ofInput r : Action σ α) :=
  keeps_ofExcept _

theorem keeps_bind {x : Action σ α} {f : α → Action σ β} (hx : Keeps view x)
    (hf : ∀ a, Keeps view (f a)) : Keeps view (x >>= f) := by
  intro s
  have h := hx s
  rw [bind_apply]
  rcases hs : x s with ⟨e | a, t⟩
  · rwa [hs] at h
  · rw [hs] at h
    exact (hf a t).trans h

end Tablescope.Action
