import SeCloak.Misc.Faults

/-!
# Code on a part of the state

`zoom part put m` runs `m` on the part of a larger state that `part` selects, and puts the part
that `m` leaves back into it.
-/

namespace SeCloak.Misc.Code

variable {σ ρ τ ε α : Type} {part : σ → ρ} {put : σ → ρ → σ}

def zoom (part : σ → ρ) (put : σ → ρ → σ) (m : Code ρ τ ε α) : Code σ τ ε α := fun s =>
  match m (part s) with
  | ⟨w, .error e⟩ => ⟨w, .error e⟩
  | ⟨w, .ok (a, t)⟩ => ⟨w, .ok (a, put s t)⟩

theorem runs_zoom {m : Code ρ τ ε α} {s s' : σ} {w : List τ} {a : α} :
    Runs (zoom part put m) s w a s' ↔ ∃ t, Runs m (part s) w a t ∧ s' = put s t := by
  unfold Runs zoom
  rcases m (part s) with ⟨w', e | ⟨b, t⟩⟩
  · simp
  · constructor
    · intro h
      simp only [Outcome.mk.injEq, Except.ok.injEq, Prod.mk.injEq] at h
      obtain ⟨rfl, rfl, rfl⟩ := h
      exact ⟨t, rfl, rfl⟩
    · rintro ⟨u, h, rfl⟩
      simp only [Outcome.mk.injEq, Except.ok.injEq, Prod.mk.injEq] at h
      obtain ⟨rfl, rfl, rfl⟩ := h
      rfl

end SeCloak.Misc.Code
