import Mathlib.Data.List.Basic
import Mathlib.Tactic.Common

/-!
# Runs of labelled steps

`Steps step s as s'` is a run from `s` to `s'` whose steps carry the labels `as`. An invariant of
a run is proved from one step (`Steps.invariant`), and what a run does last from the run before
it (`steps_snoc`).
-/

namespace SeCloak.Misc

variable {σ α : Type}

/-- Runs of `step`, with their labels in order. -/
inductive Steps (step : σ → α → σ → Prop) : σ → List α → σ → Prop
  | nil (s : σ) : Steps step s [] s
  | cons {s s₁ s' : σ} {a : α} {as : List α} (first : step s a s₁) (rest : Steps step s₁ as s') :
    Steps step s (a :: as) s'

variable {step : σ → α → σ → Prop} {s s' : σ} {as bs : List α}

theorem steps_append :
    Steps step s (as ++ bs) s' ↔ ∃ s₁, Steps step s as s₁ ∧ Steps step s₁ bs s' := by
  induction as generalizing s with
  | nil =>
    constructor
    · intro h
      exact ⟨s, .nil s, h⟩
    · rintro ⟨s₁, ⟨⟩, h⟩
      exact h
  | cons a as ih =>
    constructor
    · rintro ⟨⟩
      rename_i s₁ first rest
      obtain ⟨s₂, h₁, h₂⟩ := ih.mp rest
      exact ⟨s₂, .cons first h₁, h₂⟩
    · rintro ⟨s₂, h, h₂⟩
      cases h with
      | cons first h₁ => exact .cons first (ih.mpr ⟨s₂, h₁, h₂⟩)

/-- A run ends with its last step. -/
theorem steps_snoc {a : α} :
    Steps step s (as ++ [a]) s' ↔ ∃ s₁, Steps step s as s₁ ∧ step s₁ a s' := by
  rw [steps_append]
  constructor
  · rintro ⟨s₁, h₁, h₂⟩
    cases h₂ with
    | cons first rest =>
      cases rest
      exact ⟨s₁, h₁, first⟩
  · rintro ⟨s₁, h₁, h₂⟩
    exact ⟨s₁, h₁, .cons h₂ (.nil s')⟩

/-- What every step of the run preserves holds at its end. -/
theorem Steps.invariant {I : σ → Prop} (h : Steps step s as s')
    (hstep : ∀ a ∈ as, ∀ s s', step s a s' → I s → I s') (hs : I s) : I s' := by
  induction h with
  | nil s => exact hs
  | cons first rest ih =>
    refine ih (fun a ha => hstep a (List.mem_cons_of_mem _ ha)) ?_
    exact hstep _ List.mem_cons_self _ _ first hs

/-- A run that a step function computes. -/
theorem steps_of_foldlM {f : σ → α → Option σ} (hf : ∀ s a s', f s a = some s' → step s a s')
    (h : as.foldlM f s = some s') : Steps step s as s' := by
  induction as generalizing s with
  | nil =>
    obtain rfl := Option.some.inj h
    exact .nil s
  | cons a as ih =>
    rw [List.foldlM_cons] at h
    obtain ⟨s₁, hfirst, hrest⟩ := Option.bind_eq_some_iff.mp h
    exact .cons (hf _ _ _ hfirst) (ih hrest)

end SeCloak.Misc
