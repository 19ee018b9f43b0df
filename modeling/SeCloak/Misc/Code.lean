import Mathlib.Data.List.Basic
import Mathlib.Tactic.Common

/-!
# Imperative code with faults and an event log

`Code σ τ ε α` is a piece of imperative code over a state `σ`: it may stop with a fault of
type `ε`, and on the way it emits events of type `τ`. The log is kept when the code faults,
so that what a run did before it stopped can still be stated.

Two ways of reasoning are provided. `Runs m s w a s'` is the successful run of `m` from `s`,
with its events `w`, and one inversion law per construct takes a run apart. `Within m R`
says that every successful run of `m` stays inside a relation `R`; it composes as soon as
`R` holds of the empty run and of the concatenation of two runs (`Closed`).
-/

namespace SeCloak.Misc

/-- How a run ended: the events emitted, and the result or the fault. -/
structure Outcome (σ τ ε α : Type) where
  events : List τ
  result : Except ε (α × σ)

/-- Imperative code over the state `σ`. -/
def Code (σ τ ε α : Type) := σ → Outcome σ τ ε α

namespace Code

variable {σ τ ε α β : Type}

protected def pure (a : α) : Code σ τ ε α := fun s => ⟨[], .ok (a, s)⟩

protected def bind (m : Code σ τ ε α) (f : α → Code σ τ ε β) : Code σ τ ε β := fun s =>
  match m s with
  | ⟨w, .error e⟩ => ⟨w, .error e⟩
  | ⟨w, .ok (a, s')⟩ => ⟨w ++ (f a s').events, (f a s').result⟩

instance : Monad (Code σ τ ε) where
  pure := Code.pure
  bind := Code.bind

/-- The current state. -/
def get : Code σ τ ε σ := fun s => ⟨[], .ok (s, s)⟩

/-- A silent update of the state. -/
def modify (f : σ → σ) : Code σ τ ε Unit := fun s => ⟨[], .ok ((), f s)⟩

/-- Stop with a fault. -/
def throw (e : ε) : Code σ τ ε α := fun _ => ⟨[], .error e⟩

/-- Emit an event that may depend on the current state. -/
def emit (f : σ → τ) : Code σ τ ε Unit := fun s => ⟨[f s], .ok ((), s)⟩

/-- Stop with the fault `e` unless `p` holds. -/
def require (p : Prop) [Decidable p] (e : ε) : Code σ τ ε Unit := if p then pure () else throw e

/-- Run `m` only if `p` holds. -/
def runIf (p : Prop) [Decidable p] (m : Code σ τ ε Unit) : Code σ τ ε Unit := if p then m else pure ()

/-- The body `f` for each element in turn. -/
def forEach (f : β → Code σ τ ε Unit) : List β → Code σ τ ε Unit
  | [] => pure ()
  | x :: xs => do f x; forEach f xs

/-- `m` run from `s` succeeds with the events `w`, the value `a` and the final state `s'`. -/
def Runs (m : Code σ τ ε α) (s : σ) (w : List τ) (a : α) (s' : σ) : Prop :=
  m s = ⟨w, .ok (a, s')⟩

/-- There is one run from a state. -/
theorem Runs.unique {m : Code σ τ ε α} {s s' t : σ} {w w' : List τ} {a a' : α}
    (h : Runs m s w a s') (h' : Runs m s w' a' t) : w' = w ∧ a' = a ∧ t = s' := by
  unfold Runs at h h'
  rw [h] at h'
  injection h' with hw hresult
  injection hresult with hpair
  injection hpair with ha hs
  exact ⟨hw.symm, ha.symm, hs.symm⟩

/-- Whether the run from `s` succeeds. -/
def succeeds (m : Code σ τ ε α) (s : σ) : Bool :=
  match (m s).result with
  | .ok _ => true
  | .error _ => false

theorem exists_runs {m : Code σ τ ε α} {s : σ} (h : m.succeeds s = true) :
    ∃ w a s', Runs m s w a s' := by
  unfold succeeds at h
  cases hm : m s with
  | mk w r =>
    cases r with
    | error e => simp [hm] at h
    | ok x => exact ⟨w, x.1, x.2, hm⟩

/-- The state after the run from `s`, if it succeeds. -/
def after (m : Code σ τ ε α) (s : σ) : σ :=
  match (m s).result with
  | .ok (_, s') => s'
  | .error _ => s

theorem runs_after {m : Code σ τ ε α} {s : σ} (h : m.succeeds s = true) :
    ∃ a, Runs m s (m s).events a (m.after s) := by
  obtain ⟨w, a, s', hr⟩ := exists_runs h
  have hw : (m s).events = w := by rw [hr]
  have hs' : m.after s = s' := by
    unfold after
    rw [hr]
  rw [hw, hs']
  exact ⟨a, hr⟩

theorem Runs.succeeds_after {m : Code σ τ ε α} {s s' : σ} {w : List τ} {a : α}
    (h : Runs m s w a s') : m.succeeds s = true ∧ m.after s = s' := by
  unfold succeeds after
  rw [h]
  exact ⟨rfl, rfl⟩

/-- The value and the state after the run from `s`, if it succeeds. -/
def out (m : Code σ τ ε α) (s : σ) : Option (α × σ) :=
  match (m s).result with
  | .ok x => some x
  | .error _ => none

theorem out_eq_some {m : Code σ τ ε α} {s s' : σ} {a : α} :
    m.out s = some (a, s') ↔ ∃ w, Runs m s w a s' := by
  unfold out Runs
  cases hm : m s with
  | mk w r =>
    cases r with
    | error e => simp
    | ok x => simp

theorem runs_of_out {m : Code σ τ ε α} {s : σ} {f : α → β} {b : β}
    (h : (m.out s).map (fun x => f x.1) = some b) : ∃ w a s', Runs m s w a s' ∧ f a = b := by
  obtain ⟨⟨a, s'⟩, hout, hf⟩ := Option.map_eq_some_iff.mp h
  obtain ⟨w, hr⟩ := out_eq_some.mp hout
  exact ⟨w, a, s', hr, hf⟩

/-! ## Inversion of runs -/

@[simp] theorem runs_pure {a b : α} {s s' : σ} {w : List τ} :
    Runs (pure a : Code σ τ ε α) s w b s' ↔ w = [] ∧ b = a ∧ s' = s := by
  simp [Runs, pure, Code.pure, eq_comm]

theorem runs_bind {m : Code σ τ ε α} {f : α → Code σ τ ε β} {s s'' : σ} {w : List τ} {b : β} :
    Runs (m >>= f) s w b s'' ↔
      ∃ w₁ a s' w₂, Runs m s w₁ a s' ∧ Runs (f a) s' w₂ b s'' ∧ w = w₁ ++ w₂ := by
  change Code.bind m f s = _ ↔ _
  unfold Code.bind
  constructor
  · intro h
    split at h
    · cases h
    · rename_i w₁ a s' hm
      cases hf : f a s' with
      | mk w₂ r =>
        simp only [hf, Outcome.mk.injEq] at h
        obtain ⟨rfl, rfl⟩ := h
        exact ⟨w₁, a, s', w₂, hm, hf, rfl⟩
  · rintro ⟨w₁, a, s', w₂, hm, hf, rfl⟩
    rw [hm]
    simp only
    rw [hf]

@[simp] theorem runs_get {s s' t : σ} {w : List τ} :
    Runs (get : Code σ τ ε σ) s w t s' ↔ w = [] ∧ t = s ∧ s' = s := by
  simp [Runs, get, eq_comm]

@[simp] theorem runs_modify {f : σ → σ} {s s' : σ} {w : List τ} {u : Unit} :
    Runs (modify f : Code σ τ ε Unit) s w u s' ↔ w = [] ∧ s' = f s := by
  simp [Runs, modify, eq_comm]

@[simp] theorem runs_throw {e : ε} {s s' : σ} {w : List τ} {a : α} :
    ¬ Runs (throw e : Code σ τ ε α) s w a s' := by
  simp [Runs, throw]

@[simp] theorem runs_emit {f : σ → τ} {s s' : σ} {w : List τ} {u : Unit} :
    Runs (emit f : Code σ τ ε Unit) s w u s' ↔ w = [f s] ∧ s' = s := by
  simp [Runs, emit, eq_comm]

@[simp] theorem runs_ite {c : Prop} [Decidable c] {m n : Code σ τ ε α} {s s' : σ} {w : List τ}
    {a : α} : Runs (if c then m else n) s w a s' ↔ if c then Runs m s w a s' else Runs n s w a s' := by
  split <;> rfl

@[simp] theorem runs_require {p : Prop} [Decidable p] {e : ε} {s s' : σ} {w : List τ} {u : Unit} :
    Runs (require p e : Code σ τ ε Unit) s w u s' ↔ w = [] ∧ s' = s ∧ p := by
  by_cases hp : p <;> simp [require, hp]

theorem runs_runIf {p : Prop} [Decidable p] {m : Code σ τ ε Unit} {s s' : σ} {w : List τ}
    {u : Unit} : Runs (runIf p m) s w u s' ↔
      (p ∧ Runs m s w () s') ∨ (¬ p ∧ w = [] ∧ s' = s) := by
  by_cases hp : p <;> simp [runIf, hp]

/-! Steps that cannot change both the log and the state, in front of the rest of the code. -/

@[simp] theorem runs_pure_bind {a : α} {f : α → Code σ τ ε β} {s s' : σ} {w : List τ} {b : β} :
    Runs ((pure a : Code σ τ ε α) >>= f) s w b s' ↔ Runs (f a) s w b s' := by
  rw [runs_bind]
  constructor
  · rintro ⟨_, _, _, _, h₁, h₂, rfl⟩
    obtain ⟨rfl, rfl, rfl⟩ := runs_pure.mp h₁
    exact h₂
  · intro h
    exact ⟨[], a, s, w, runs_pure.mpr ⟨rfl, rfl, rfl⟩, h, rfl⟩

@[simp] theorem runs_get_bind {f : σ → Code σ τ ε β} {s s' : σ} {w : List τ} {b : β} :
    Runs (get >>= f) s w b s' ↔ Runs (f s) s w b s' := by
  rw [runs_bind]
  constructor
  · rintro ⟨_, _, _, _, h₁, h₂, rfl⟩
    obtain ⟨rfl, rfl, rfl⟩ := runs_get.mp h₁
    exact h₂
  · intro h
    exact ⟨[], s, s, w, runs_get.mpr ⟨rfl, rfl, rfl⟩, h, rfl⟩

@[simp] theorem runs_modify_bind {g : σ → σ} {f : Unit → Code σ τ ε β} {s s' : σ} {w : List τ}
    {b : β} : Runs (modify g >>= f) s w b s' ↔ Runs (f ()) (g s) w b s' := by
  rw [runs_bind]
  constructor
  · rintro ⟨_, _, _, _, h₁, h₂, rfl⟩
    obtain ⟨rfl, rfl⟩ := runs_modify.mp h₁
    exact h₂
  · intro h
    exact ⟨[], (), g s, w, runs_modify.mpr ⟨rfl, rfl⟩, h, rfl⟩

@[simp] theorem runs_require_bind {p : Prop} [Decidable p] {e : ε} {f : Unit → Code σ τ ε β}
    {s s' : σ} {w : List τ} {b : β} :
    Runs (require p e >>= f) s w b s' ↔ p ∧ Runs (f ()) s w b s' := by
  rw [runs_bind]
  constructor
  · rintro ⟨_, _, _, _, h₁, h₂, rfl⟩
    obtain ⟨rfl, rfl, hp⟩ := runs_require.mp h₁
    exact ⟨hp, h₂⟩
  · rintro ⟨hp, h⟩
    exact ⟨[], (), s, w, runs_require.mpr ⟨rfl, rfl, hp⟩, h, rfl⟩

theorem runs_emit_bind {e : σ → τ} {f : Unit → Code σ τ ε β} {s s' : σ} {w : List τ} {b : β} :
    Runs (emit e >>= f) s w b s' ↔ ∃ w', Runs (f ()) s w' b s' ∧ w = e s :: w' := by
  rw [runs_bind]
  constructor
  · rintro ⟨_, _, _, w', h₁, h₂, rfl⟩
    obtain ⟨rfl, rfl⟩ := runs_emit.mp h₁
    exact ⟨w', h₂, rfl⟩
  · rintro ⟨w', h, rfl⟩
    exact ⟨[e s], (), s, w', runs_emit.mpr ⟨rfl, rfl⟩, h, rfl⟩

theorem runs_bind_assoc {γ : Type} {m : Code σ τ ε α} {f : α → Code σ τ ε β} {g : β → Code σ τ ε γ}
    {s s' : σ} {w : List τ} {c : γ} :
    Runs (m >>= f >>= g) s w c s' ↔ Runs (m >>= fun a => f a >>= g) s w c s' := by
  rw [runs_bind, runs_bind]
  constructor
  · rintro ⟨_, b, t, w₃, h, h₃, rfl⟩
    obtain ⟨w₁, a, s₁, w₂, h₁, h₂, rfl⟩ := runs_bind.mp h
    exact ⟨w₁, a, s₁, w₂ ++ w₃, h₁, runs_bind.mpr ⟨w₂, b, t, w₃, h₂, h₃, rfl⟩, by simp⟩
  · rintro ⟨w₁, a, s₁, _, h₁, h, rfl⟩
    obtain ⟨w₂, b, t, w₃, h₂, h₃, rfl⟩ := runs_bind.mp h
    exact ⟨w₁ ++ w₂, b, t, w₃, runs_bind.mpr ⟨w₁, a, s₁, w₂, h₁, h₂, rfl⟩, h₃, by simp⟩

@[simp] theorem runs_forEach_nil {f : β → Code σ τ ε Unit} {s s' : σ} {w : List τ} {u : Unit} :
    Runs (forEach f []) s w u s' ↔ w = [] ∧ s' = s := by
  simp [forEach]

theorem runs_forEach_cons {f : β → Code σ τ ε Unit} {x : β} {xs : List β} {s s'' : σ}
    {w : List τ} {u : Unit} : Runs (forEach f (x :: xs)) s w u s'' ↔
      ∃ w₁ s' w₂, Runs (f x) s w₁ () s' ∧ Runs (forEach f xs) s' w₂ () s'' ∧ w = w₁ ++ w₂ := by
  rw [forEach, runs_bind]
  constructor
  · rintro ⟨w₁, _, s', w₂, h₁, h₂, hw⟩
    exact ⟨w₁, s', w₂, h₁, h₂, hw⟩
  · rintro ⟨w₁, s', w₂, h₁, h₂, hw⟩
    exact ⟨w₁, (), s', w₂, h₁, h₂, hw⟩

/-- A loop that succeeds has run its body for each element. -/
theorem runs_forEach_mem {f : β → Code σ τ ε Unit} {xs : List β} {x : β} {s s'' : σ}
    {w : List τ} {u : Unit} (h : Runs (forEach f xs) s w u s'') (hx : x ∈ xs) :
    ∃ s₁ w₁ s₂, Runs (f x) s₁ w₁ () s₂ := by
  induction xs generalizing s w with
  | nil => cases hx
  | cons y xs ih =>
    obtain ⟨w₁, s₁, w₂, h₁, h₂, -⟩ := runs_forEach_cons.mp h
    rcases List.mem_cons.mp hx with rfl | hx
    · exact ⟨s, w₁, s₁, h₁⟩
    · exact ih h₂ hx

/-! ## Relations every run stays inside -/

/-- `R` holds of the empty run and of a run followed by another. -/
structure Closed (R : σ → List τ → σ → Prop) : Prop where
  nil : ∀ s, R s [] s
  append : ∀ {s s' s'' w w'}, R s w s' → R s' w' s'' → R s (w ++ w') s''

/-- Every successful run of `m` is in `R`. -/
def Within (m : Code σ τ ε α) (R : σ → List τ → σ → Prop) : Prop :=
  ∀ ⦃s w a s'⦄, Runs m s w a s' → R s w s'

variable {R : σ → List τ → σ → Prop}

theorem within_pure (hR : Closed R) (a : α) : Within (pure a : Code σ τ ε α) R := by
  intro s w b s' h
  obtain ⟨rfl, -, rfl⟩ := runs_pure.mp h
  exact hR.nil _

theorem within_bind (hR : Closed R) {m : Code σ τ ε α} {f : α → Code σ τ ε β}
    (hm : Within m R) (hf : ∀ a, Within (f a) R) : Within (m >>= f) R := by
  intro s w b s'' h
  obtain ⟨w₁, a, s', w₂, h₁, h₂, rfl⟩ := runs_bind.mp h
  exact hR.append (hm h₁) (hf a h₂)

theorem within_get (hR : Closed R) : Within (get : Code σ τ ε σ) R := by
  intro s w b s' h
  obtain ⟨rfl, -, rfl⟩ := runs_get.mp h
  exact hR.nil _

theorem within_modify {f : σ → σ} (hf : ∀ s, R s [] (f s)) :
    Within (modify f : Code σ τ ε Unit) R := by
  intro s w b s' h
  obtain ⟨rfl, rfl⟩ := runs_modify.mp h
  exact hf s

theorem within_emit {f : σ → τ} (hf : ∀ s, R s [f s] s) :
    Within (emit f : Code σ τ ε Unit) R := by
  intro s w b s' h
  obtain ⟨rfl, rfl⟩ := runs_emit.mp h
  exact hf _

theorem within_throw (e : ε) : Within (throw e : Code σ τ ε α) R :=
  fun _ _ _ _ h => absurd h runs_throw

theorem within_ite {c : Prop} [Decidable c] {m n : Code σ τ ε α} (hm : Within m R)
    (hn : Within n R) : Within (if c then m else n) R := by
  split
  · exact hm
  · exact hn

theorem within_require (hR : Closed R) {p : Prop} [Decidable p] (e : ε) :
    Within (require p e : Code σ τ ε Unit) R := within_ite (within_pure hR ()) (within_throw e)

theorem within_runIf (hR : Closed R) {p : Prop} [Decidable p] {m : Code σ τ ε Unit}
    (hm : Within m R) : Within (runIf p m) R := within_ite hm (within_pure hR ())

theorem within_forEach (hR : Closed R) {f : β → Code σ τ ε Unit} {xs : List β}
    (hf : ∀ x ∈ xs, Within (f x) R) : Within (forEach f xs) R := by
  induction xs with
  | nil =>
    intro s w u s' h
    obtain ⟨rfl, rfl⟩ := runs_forEach_nil.mp h
    exact hR.nil _
  | cons x xs ih =>
    intro s w u s'' h
    obtain ⟨w₁, s', w₂, h₁, h₂, rfl⟩ := runs_forEach_cons.mp h
    exact hR.append (hf x (by simp) h₁) (ih (fun y hy => hf y (by simp [hy])) h₂)

/-- The runs that leave a projection of the state alone. -/
def Keeps {γ : Type} (p : σ → γ) : σ → List τ → σ → Prop := fun s _ s' => p s' = p s

theorem keeps_closed {γ : Type} (p : σ → γ) : Closed (Keeps p : σ → List τ → σ → Prop) where
  nil _ := rfl
  append h h' := h'.trans h

/-- The runs that preserve an invariant of the state. -/
def Preserves (I : σ → Prop) : σ → List τ → σ → Prop := fun s _ s' => I s → I s'

theorem preserves_closed (I : σ → Prop) : Closed (Preserves I : σ → List τ → σ → Prop) where
  nil _ h := h
  append h h' hs := h' (h hs)

end Code

end SeCloak.Misc
