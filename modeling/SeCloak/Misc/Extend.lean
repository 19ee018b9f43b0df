import Mathlib.Data.List.Basic
import Mathlib.Tactic.Common

/-!
# Partial functions that grow

`Extends f g D` says that `g` is `f` with the pairs of the relation `D` added, and that nothing that
`f` had is replaced. A sequence of such steps from the empty function ends in the union of what the
steps add, in whatever order they are made.
-/

namespace SeCloak.Misc

variable {α β γ : Type}

structure Extends (f g : α → Option β) (D : α → β → Prop) : Prop where
  added : ∀ x w, D x w → g x = some w
  frame : ∀ x, (∀ w, ¬ D x w) → g x = f x
  kept : ∀ x w, f x = some w → g x = some w

namespace Extends

variable {f g h : α → Option β} {D E : α → β → Prop}

theorem refl (f : α → Option β) : Extends f f fun _ _ => False :=
  ⟨fun _ _ hD => hD.elim, fun _ _ => rfl, fun _ _ hx => hx⟩

theorem trans (hfg : Extends f g D) (hgh : Extends g h E) :
    Extends f h fun x w => D x w ∨ E x w := by
  refine ⟨fun x w hDE => ?_, fun x hno => ?_, fun x w hx => ?_⟩
  · rcases hDE with hD | hE
    · exact hgh.kept x w (hfg.added x w hD)
    · exact hgh.added x w hE
  · rw [hgh.frame x fun w hE => hno w (Or.inr hE), hfg.frame x fun w hD => hno w (Or.inl hD)]
  · exact hgh.kept x w (hfg.kept x w hx)

theorem congr (h : Extends f g D) (hDE : ∀ x w, D x w ↔ E x w) : Extends f g E := by
  refine ⟨fun x w hE => ?_, fun x hno => ?_, h.kept⟩
  · exact h.added x w ((hDE x w).mpr hE)
  · exact h.frame x fun w hD => hno w ((hDE x w).mp hD)

/-- From the empty function, the pairs of the result are those that were added. -/
theorem of_empty (h : Extends (fun _ => none) g D) (x : α) (w : β) : g x = some w ↔ D x w := by
  constructor
  · intro hx
    by_contra hno
    by_cases hany : ∃ v, D x v
    · obtain ⟨v, hv⟩ := hany
      have hgv := h.added x v hv
      rw [hx] at hgv
      obtain rfl := Option.some.inj hgv
      exact hno hv
    · have hnone := h.frame x fun v hv => hany ⟨v, hv⟩
      rw [hx] at hnone
      cases hnone
  · exact h.added x w

end Extends

/-- A fold whose steps keep an invariant and extend a partial view of the state extends it by all that
the steps add. -/
theorem extends_foldlM {σ ε : Type} {step : σ → γ → Except ε σ} {view : σ → α → Option β}
    {I : σ → Prop} {D : γ → α → β → Prop} {xs : List γ} {s s' : σ}
    (hstep : ∀ y ∈ xs, ∀ s s', I s → step s y = .ok s' →
      I s' ∧ Extends (view s) (view s') (D y))
    (hs : I s) (h : xs.foldlM step s = .ok s') :
    I s' ∧ Extends (view s) (view s') fun x w => ∃ y ∈ xs, D y x w := by
  induction xs generalizing s with
  | nil =>
    obtain rfl := Except.ok.inj h
    exact ⟨hs, (Extends.refl _).congr fun x w => by simp⟩
  | cons y ys ih =>
    rw [List.foldlM_cons] at h
    cases hy : step s y with
    | error e =>
      rw [hy] at h
      cases h
    | ok s₁ =>
      rw [hy] at h
      obtain ⟨hs₁, hext⟩ := hstep y List.mem_cons_self s s₁ hs hy
      obtain ⟨hs', hext'⟩ := ih (fun z hz => hstep z (List.mem_cons_of_mem _ hz)) hs₁ h
      exact ⟨hs', (hext.trans hext').congr fun x w => by simp⟩

end SeCloak.Misc
