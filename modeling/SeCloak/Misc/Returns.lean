import SeCloak.Misc.Code

/-!
# Total correctness

`Returns m s Q` says that the code `m` returns when it is run from `s`, and that its value and the
state it leaves satisfy `Q`. There is one rule for each construct.
-/

namespace SeCloak.Misc.Code

variable {σ τ ε α β : Type} {s : σ}

/-- The run of `m` from `s` returns, with a value and a state that satisfy `Q`. -/
def Returns (m : Code σ τ ε α) (s : σ) (Q : α → σ → Prop) : Prop :=
  ∃ w a s', Runs m s w a s' ∧ Q a s'

theorem Returns.imp {m : Code σ τ ε α} {P Q : α → σ → Prop} (h : Returns m s P)
    (hPQ : ∀ a s', P a s' → Q a s') : Returns m s Q := by
  obtain ⟨w, a, s', hrun, hP⟩ := h
  exact ⟨w, a, s', hrun, hPQ a s' hP⟩

/-- The run is the only one. -/
theorem Returns.of_runs {m : Code σ τ ε α} {Q : α → σ → Prop} {w : List τ} {a : α} {s' : σ}
    (h : Returns m s Q) (hrun : Runs m s w a s') : Q a s' := by
  obtain ⟨w', a', t, hrun', hQ⟩ := h
  obtain ⟨-, rfl, rfl⟩ := hrun.unique hrun'
  exact hQ

theorem returns_pure {a : α} {Q : α → σ → Prop} (h : Q a s) :
    Returns (pure a : Code σ τ ε α) s Q :=
  ⟨[], a, s, runs_pure.mpr ⟨rfl, rfl, rfl⟩, h⟩

theorem returns_bind {m : Code σ τ ε α} {f : α → Code σ τ ε β} {P : α → σ → Prop}
    {Q : β → σ → Prop} (hm : Returns m s P) (hf : ∀ a s', P a s' → Returns (f a) s' Q) :
    Returns (m >>= f) s Q := by
  obtain ⟨w, a, s', hrun, hP⟩ := hm
  obtain ⟨w', b, s'', hrun', hQ⟩ := hf a s' hP
  exact ⟨w ++ w', b, s'', runs_bind.mpr ⟨w, a, s', w', hrun, hrun', rfl⟩, hQ⟩

theorem returns_get_bind {f : σ → Code σ τ ε β} {Q : β → σ → Prop} (h : Returns (f s) s Q) :
    Returns (get >>= f) s Q := by
  obtain ⟨w, b, s', hrun, hQ⟩ := h
  exact ⟨w, b, s', runs_get_bind.mpr hrun, hQ⟩

theorem returns_modify {f : σ → σ} {Q : Unit → σ → Prop} (h : Q () (f s)) :
    Returns (modify f : Code σ τ ε Unit) s Q :=
  ⟨[], (), f s, runs_modify.mpr ⟨rfl, rfl⟩, h⟩

theorem returns_require_bind {p : Prop} [Decidable p] {e : ε} {f : Unit → Code σ τ ε β}
    {Q : β → σ → Prop} (hp : p) (h : Returns (f ()) s Q) : Returns (require p e >>= f) s Q := by
  obtain ⟨w, b, s', hrun, hQ⟩ := h
  exact ⟨w, b, s', runs_require_bind.mpr ⟨hp, hrun⟩, hQ⟩

/-! Read backwards, the rules take a run apart. -/

theorem returns_pure_iff {a : α} {Q : α → σ → Prop} :
    Returns (pure a : Code σ τ ε α) s Q ↔ Q a s := by
  constructor
  · rintro ⟨w, b, s', hrun, hQ⟩
    obtain ⟨-, rfl, rfl⟩ := runs_pure.mp hrun
    exact hQ
  · exact returns_pure

theorem returns_bind_iff {m : Code σ τ ε α} {f : α → Code σ τ ε β} {Q : β → σ → Prop} :
    Returns (m >>= f) s Q ↔ Returns m s fun a s' => Returns (f a) s' Q := by
  constructor
  · rintro ⟨w, b, s'', hrun, hQ⟩
    obtain ⟨w₁, a, s', w₂, hm, hf, rfl⟩ := runs_bind.mp hrun
    exact ⟨w₁, a, s', hm, w₂, b, s'', hf, hQ⟩
  · intro h
    exact returns_bind h fun _ _ h => h

theorem returns_get_bind_iff {f : σ → Code σ τ ε β} {Q : β → σ → Prop} :
    Returns (get >>= f) s Q ↔ Returns (f s) s Q := by
  constructor
  · rintro ⟨w, b, s', hrun, hQ⟩
    exact ⟨w, b, s', runs_get_bind.mp hrun, hQ⟩
  · exact returns_get_bind

theorem returns_modify_iff {f : σ → σ} {Q : Unit → σ → Prop} :
    Returns (modify f : Code σ τ ε Unit) s Q ↔ Q () (f s) := by
  constructor
  · rintro ⟨w, b, s', hrun, hQ⟩
    obtain ⟨-, rfl⟩ := runs_modify.mp hrun
    exact hQ
  · exact returns_modify

theorem returns_require_iff {p : Prop} [Decidable p] {e : ε} {Q : Unit → σ → Prop} :
    Returns (require p e : Code σ τ ε Unit) s Q ↔ p ∧ Q () s := by
  constructor
  · rintro ⟨w, b, s', hrun, hQ⟩
    obtain ⟨-, rfl, hp⟩ := runs_require.mp hrun
    exact ⟨hp, hQ⟩
  · rintro ⟨hp, hQ⟩
    exact ⟨[], (), s, runs_require.mpr ⟨rfl, rfl, hp⟩, hQ⟩

theorem returns_runIf {p : Prop} [Decidable p] {m : Code σ τ ε Unit} {Q : Unit → σ → Prop}
    (hyes : p → Returns m s Q) (hno : ¬ p → Q () s) : Returns (runIf p m) s Q := by
  unfold runIf
  by_cases hp : p
  · rw [if_pos hp]
    exact hyes hp
  · rw [if_neg hp]
    exact returns_pure (hno hp)

/-- The body of the loop does what it has to do for its element, and undoes it for none. -/
theorem returns_forEach {f : β → Code σ τ ε Unit} {xs : List β} {P : σ → Prop} {D : β → σ → Prop}
    (hs : P s) (hf : ∀ x ∈ xs, ∀ s, P s → Returns (f x) s fun _ s' =>
      P s' ∧ D x s' ∧ ∀ y, D y s → D y s') :
    Returns (forEach f xs) s fun _ s' =>
      P s' ∧ (∀ x ∈ xs, D x s') ∧ ∀ y, D y s → D y s' := by
  induction xs generalizing s with
  | nil => exact returns_pure ⟨hs, by simp, fun _ hy => hy⟩
  | cons x xs ih =>
    refine returns_bind (hf x List.mem_cons_self s hs) fun _ s₁ h₁ => ?_
    obtain ⟨hs₁, hx, hkeep⟩ := h₁
    have hrest := ih hs₁ fun y hy => hf y (List.mem_cons_of_mem x hy)
    refine hrest.imp fun _ s' ⟨hs', hxs, hkeep'⟩ => ⟨hs', ?_, fun y hy => hkeep' y (hkeep y hy)⟩
    exact List.forall_mem_cons.mpr ⟨hkeep' x hx, hxs⟩

end SeCloak.Misc.Code
