import SeCloak.Misc.Faults

/-!
# One run follows another

`Follows R bad m n` compares two pieces of code from states that are related by `R`: every run of one is
followed by a run of the other with the same result, from and to related states. Only `n` may stop where
`m` goes on, with a fault in `bad`. There is one rule per construct.
-/

namespace SeCloak.Misc.Code

variable {σ τ ε α β : Type} {R : σ → σ → Prop} {bad : ε → Prop}

/-- `n` follows `m`, as long as it does not stop with a fault in `bad`, and `m` follows `n`. -/
structure Follows (R : σ → σ → Prop) (bad : ε → Prop) (m n : Code σ τ ε α) : Prop where
  forth : ∀ ⦃s t w a s'⦄, R s t → Runs m s w a s' →
    (∃ w' t', Runs n t w' a t' ∧ R s' t') ∨ ∃ w' e, Stops n t w' e ∧ bad e
  back : ∀ ⦃s t w a t'⦄, R s t → Runs n t w a t' → ∃ w' s', Runs m s w' a s' ∧ R s' t'

theorem follows_pure (a : α) : Follows R bad (pure a : Code σ τ ε α) (pure a) where
  forth s t w b s' hst h := by
    obtain ⟨rfl, rfl, rfl⟩ := runs_pure.mp h
    exact Or.inl ⟨[], t, runs_pure.mpr ⟨rfl, rfl, rfl⟩, hst⟩
  back s t w b t' hst h := by
    obtain ⟨rfl, rfl, rfl⟩ := runs_pure.mp h
    exact ⟨[], s, runs_pure.mpr ⟨rfl, rfl, rfl⟩, hst⟩

theorem follows_bind {m n : Code σ τ ε α} {f g : α → Code σ τ ε β} (hm : Follows R bad m n)
    (hf : ∀ a, Follows R bad (f a) (g a)) : Follows R bad (m >>= f) (n >>= g) where
  forth s t w b s'' hst h := by
    obtain ⟨w₁, a, s', w₂, h₁, h₂, rfl⟩ := runs_bind.mp h
    rcases hm.forth hst h₁ with ⟨v₁, t', k₁, hst'⟩ | ⟨v₁, e, k₁, he⟩
    · rcases (hf a).forth hst' h₂ with ⟨v₂, t'', k₂, hst''⟩ | ⟨v₂, e, k₂, he⟩
      · exact Or.inl ⟨v₁ ++ v₂, t'', runs_bind.mpr ⟨v₁, a, t', v₂, k₁, k₂, rfl⟩, hst''⟩
      · exact Or.inr ⟨v₁ ++ v₂, e, stops_bind.mpr (Or.inr ⟨v₁, a, t', v₂, k₁, k₂, rfl⟩), he⟩
    · exact Or.inr ⟨v₁, e, stops_bind.mpr (Or.inl k₁), he⟩
  back s t w b t'' hst h := by
    obtain ⟨w₁, a, t', w₂, h₁, h₂, rfl⟩ := runs_bind.mp h
    obtain ⟨v₁, s', k₁, hst'⟩ := hm.back hst h₁
    obtain ⟨v₂, s'', k₂, hst''⟩ := (hf a).back hst' h₂
    exact ⟨v₁ ++ v₂, s'', runs_bind.mpr ⟨v₁, a, s', v₂, k₁, k₂, rfl⟩, hst''⟩

/-- The rest of the code may depend on what the two states have in common. -/
theorem follows_get_bind {f g : σ → Code σ τ ε β}
    (hf : ∀ s t, R s t → Follows R bad (f s) (g t)) : Follows R bad (get >>= f) (get >>= g) where
  forth s t w b s' hst h := by
    rw [runs_get_bind] at h
    rcases (hf s t hst).forth hst h with ⟨w', t', k, hst'⟩ | ⟨w', e, k, he⟩
    · exact Or.inl ⟨w', t', runs_get_bind.mpr k, hst'⟩
    · exact Or.inr ⟨w', e, stops_get_bind.mpr k, he⟩
  back s t w b t' hst h := by
    rw [runs_get_bind] at h
    obtain ⟨w', s', k, hst'⟩ := (hf s t hst).back hst h
    exact ⟨w', s', runs_get_bind.mpr k, hst'⟩

theorem follows_modify {f g : σ → σ} (hf : ∀ s t, R s t → R (f s) (g t)) :
    Follows R bad (modify f : Code σ τ ε Unit) (modify g) where
  forth s t w u s' hst h := by
    obtain ⟨rfl, rfl⟩ := runs_modify.mp h
    exact Or.inl ⟨[], g t, runs_modify.mpr ⟨rfl, rfl⟩, hf s t hst⟩
  back s t w u t' hst h := by
    obtain ⟨rfl, rfl⟩ := runs_modify.mp h
    exact ⟨[], f s, runs_modify.mpr ⟨rfl, rfl⟩, hf s t hst⟩

theorem follows_emit (f g : σ → τ) : Follows R bad (emit f : Code σ τ ε Unit) (emit g) where
  forth s t w u s' hst h := by
    obtain ⟨rfl, rfl⟩ := runs_emit.mp h
    exact Or.inl ⟨[g t], t, runs_emit.mpr ⟨rfl, rfl⟩, hst⟩
  back s t w u t' hst h := by
    obtain ⟨rfl, rfl⟩ := runs_emit.mp h
    exact ⟨[f s], s, runs_emit.mpr ⟨rfl, rfl⟩, hst⟩

theorem follows_throw (e e' : ε) : Follows R bad (throw e : Code σ τ ε α) (throw e') :=
  ⟨fun _ _ _ _ _ _ h => absurd h runs_throw, fun _ _ _ _ _ _ h => absurd h runs_throw⟩

theorem follows_require {p q : Prop} [Decidable p] [Decidable q] (hpq : p ↔ q) (e : ε) :
    Follows R bad (require p e : Code σ τ ε Unit) (require q e) where
  forth s t w u s' hst h := by
    obtain ⟨rfl, rfl, hp⟩ := runs_require.mp h
    exact Or.inl ⟨[], t, runs_require.mpr ⟨rfl, rfl, hpq.mp hp⟩, hst⟩
  back s t w u t' hst h := by
    obtain ⟨rfl, rfl, hq⟩ := runs_require.mp h
    exact ⟨[], s, runs_require.mpr ⟨rfl, rfl, hpq.mpr hq⟩, hst⟩

theorem follows_runIf {p q : Prop} [Decidable p] [Decidable q] (hpq : p ↔ q)
    {m n : Code σ τ ε Unit} (hm : Follows R bad m n) : Follows R bad (runIf p m) (runIf q n) := by
  by_cases hp : p
  · rw [runIf, runIf, if_pos hp, if_pos (hpq.mp hp)]
    exact hm
  · rw [runIf, runIf, if_neg hp, if_neg fun hq => hp (hpq.mpr hq)]
    exact follows_pure ()

theorem follows_forEach {f g : β → Code σ τ ε Unit} {xs : List β}
    (hf : ∀ x ∈ xs, Follows R bad (f x) (g x)) : Follows R bad (forEach f xs) (forEach g xs) := by
  induction xs with
  | nil => exact follows_pure ()
  | cons x xs ih =>
    obtain ⟨hx, hxs⟩ := List.forall_mem_cons.mp hf
    exact follows_bind hx fun _ => ih hxs

/-- Code that does not stop and keeps the relation on its own is followed by nothing. -/
theorem follows_skip {m : Code σ τ ε Unit} (htotal : Total m)
    (hm : ∀ s t w u s', R s t → Runs m s w u s' → R s' t) : Follows R bad m (pure ()) where
  forth s t w u s' hst h :=
    Or.inl ⟨[], t, runs_pure.mpr ⟨rfl, rfl, rfl⟩, hm s t w u s' hst h⟩
  back s t w u t' hst h := by
    obtain ⟨-, -, rfl⟩ := runs_pure.mp h
    obtain ⟨w', _, s', hrun⟩ := htotal.runs s
    exact ⟨w', s', hrun, hm s _ w' () s' hst hrun⟩

end SeCloak.Misc.Code
