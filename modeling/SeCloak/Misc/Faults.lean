import SeCloak.Misc.Code

/-!
# Code that stops

`Stops m s w e` is the run of `m` from `s` that ends with the fault `e` after the events `w`. It
is the counterpart of `Runs`, with one inversion law per construct, so that what code cannot stop
with is proved along its text. `Emits P m` says that all events of `m` satisfy `P`, whether it
stops or not.
-/

namespace SeCloak.Misc.Code

variable {σ τ ε α β : Type}

theorem pure_bind_eq (a : α) (f : α → Code σ τ ε β) : pure a >>= f = f a := by
  funext s
  change Code.bind (Code.pure a) f s = f a s
  simp [Code.bind, Code.pure]

theorem bind_assoc_eq {γ : Type} (m : Code σ τ ε α) (f : α → Code σ τ ε β) (g : β → Code σ τ ε γ) :
    m >>= f >>= g = m >>= fun a => f a >>= g := by
  funext s
  change Code.bind (Code.bind m f) g s = Code.bind m (fun a => Code.bind (f a) g) s
  unfold Code.bind
  rcases m s with ⟨w, e | ⟨a, s'⟩⟩
  · rfl
  · rcases hf : f a s' with ⟨w', e' | ⟨b, s''⟩⟩ <;> simp [hf]

/-- A loop over two lists is a loop over the first, then one over the second. -/
theorem forEach_append (f : β → Code σ τ ε Unit) (xs ys : List β) :
    forEach f (xs ++ ys) = (do forEach f xs; forEach f ys) := by
  induction xs with
  | nil => exact (pure_bind_eq () fun _ => forEach f ys).symm
  | cons x xs ih => rw [List.cons_append, forEach, forEach, ih, bind_assoc_eq]

theorem forEach_map {γ : Type} (f : β → Code σ τ ε Unit) (g : γ → β) (xs : List γ) :
    forEach f (xs.map g) = forEach (fun x => f (g x)) xs := by
  induction xs with
  | nil => rfl
  | cons x xs ih => rw [List.map_cons, forEach, forEach, ih]

/-- A loop in a loop is one loop. -/
theorem forEach_flatMap {γ : Type} (f : γ → Code σ τ ε Unit) (g : β → List γ) (xs : List β) :
    forEach (fun x => forEach f (g x)) xs = forEach f (xs.flatMap g) := by
  induction xs with
  | nil => rfl
  | cons x xs ih => rw [List.flatMap_cons, forEach_append, forEach, ih]

/-- `m` run from `s` stops with the fault `e` after the events `w`. -/
def Stops (m : Code σ τ ε α) (s : σ) (w : List τ) (e : ε) : Prop := m s = ⟨w, .error e⟩

/-- A run succeeds or it stops. -/
theorem runs_or_stops (m : Code σ τ ε α) (s : σ) :
    (∃ a s', Runs m s (m s).events a s') ∨ ∃ e, Stops m s (m s).events e := by
  unfold Runs Stops
  rcases m s with ⟨w, e | ⟨a, s'⟩⟩
  · exact Or.inr ⟨e, rfl⟩
  · exact Or.inl ⟨a, s', rfl⟩

/-- The fault of the run from `s`, if it stops. -/
def fault (m : Code σ τ ε α) (s : σ) : Option ε :=
  match (m s).result with
  | .ok _ => none
  | .error e => some e

theorem stops_of_fault {m : Code σ τ ε α} {s : σ} {e : ε} (h : m.fault s = some e) :
    Stops m s (m s).events e := by
  unfold fault at h
  unfold Stops
  rcases hm : m s with ⟨w, e' | x⟩
  · rw [hm] at h
    rw [Option.some.inj h]
  · rw [hm] at h
    cases h

theorem not_stops_of_runs {m : Code σ τ ε α} {s s' : σ} {w w' : List τ} {a : α} {e : ε}
    (h : Runs m s w a s') : ¬ Stops m s w' e := by
  intro h'
  rw [Runs] at h
  rw [Stops, h] at h'
  cases h'

/-! ## Inversion -/

@[simp] theorem stops_pure {a : α} {s : σ} {w : List τ} {e : ε} :
    ¬ Stops (pure a : Code σ τ ε α) s w e := by
  simp [Stops, pure, Code.pure]

@[simp] theorem stops_get {s : σ} {w : List τ} {e : ε} :
    ¬ Stops (get : Code σ τ ε σ) s w e := by
  simp [Stops, get]

@[simp] theorem stops_modify {f : σ → σ} {s : σ} {w : List τ} {e : ε} :
    ¬ Stops (modify f : Code σ τ ε Unit) s w e := by
  simp [Stops, modify]

@[simp] theorem stops_emit {f : σ → τ} {s : σ} {w : List τ} {e : ε} :
    ¬ Stops (emit f : Code σ τ ε Unit) s w e := by
  simp [Stops, emit]

@[simp] theorem stops_throw {e e' : ε} {s : σ} {w : List τ} :
    Stops (throw e : Code σ τ ε α) s w e' ↔ w = [] ∧ e' = e := by
  simp [Stops, throw, eq_comm]

/-- A sequence stops in its first part, or in the rest after a run of the first part. -/
theorem stops_bind {m : Code σ τ ε α} {f : α → Code σ τ ε β} {s : σ} {w : List τ} {e : ε} :
    Stops (m >>= f) s w e ↔ Stops m s w e ∨
      ∃ w₁ a s' w₂, Runs m s w₁ a s' ∧ Stops (f a) s' w₂ e ∧ w = w₁ ++ w₂ := by
  change Code.bind m f s = _ ↔ _
  unfold Code.bind Stops Runs
  rcases hm : m s with ⟨w₁, e₁ | ⟨a, s'⟩⟩
  · simp
  · simp only [Outcome.mk.injEq, reduceCtorEq, and_false, false_or, Except.ok.injEq, Prod.mk.injEq]
    constructor
    · rintro ⟨rfl, he⟩
      refine ⟨w₁, a, s', (f a s').events, ⟨rfl, rfl, rfl⟩, ?_, rfl⟩
      rw [← he]
    · rintro ⟨_, _, _, w₂, ⟨rfl, rfl, rfl⟩, hf, rfl⟩
      rw [hf]
      exact ⟨rfl, rfl⟩

@[simp] theorem stops_pure_bind {a : α} {f : α → Code σ τ ε β} {s : σ} {w : List τ} {e : ε} :
    Stops ((pure a : Code σ τ ε α) >>= f) s w e ↔ Stops (f a) s w e := by
  rw [pure_bind_eq]

@[simp] theorem stops_get_bind {f : σ → Code σ τ ε β} {s : σ} {w : List τ} {e : ε} :
    Stops (get >>= f) s w e ↔ Stops (f s) s w e := by
  rw [stops_bind]
  simp

@[simp] theorem stops_modify_bind {g : σ → σ} {f : Unit → Code σ τ ε β} {s : σ} {w : List τ}
    {e : ε} : Stops (modify g >>= f) s w e ↔ Stops (f ()) (g s) w e := by
  rw [stops_bind]
  simp [Unique.exists_iff]

@[simp] theorem stops_ite {c : Prop} [Decidable c] {m n : Code σ τ ε α} {s : σ} {w : List τ}
    {e : ε} : Stops (if c then m else n) s w e ↔ if c then Stops m s w e else Stops n s w e := by
  split <;> rfl

@[simp] theorem stops_require {p : Prop} [Decidable p] {e e' : ε} {s : σ} {w : List τ} :
    Stops (require p e : Code σ τ ε Unit) s w e' ↔ ¬ p ∧ w = [] ∧ e' = e := by
  by_cases hp : p <;> simp [require, hp]

@[simp] theorem stops_require_bind {p : Prop} [Decidable p] {e e' : ε} {f : Unit → Code σ τ ε β}
    {s : σ} {w : List τ} : Stops (require p e >>= f) s w e' ↔
      (¬ p ∧ w = [] ∧ e' = e) ∨ (p ∧ Stops (f ()) s w e') := by
  rw [stops_bind, stops_require]
  by_cases hp : p <;> simp [hp, Unique.exists_iff]

theorem stops_runIf {p : Prop} [Decidable p] {m : Code σ τ ε Unit} {s : σ} {w : List τ} {e : ε} :
    Stops (runIf p m) s w e ↔ p ∧ Stops m s w e := by
  by_cases hp : p <;> simp [runIf, hp]

@[simp] theorem stops_forEach_nil {f : β → Code σ τ ε Unit} {s : σ} {w : List τ} {e : ε} :
    ¬ Stops (forEach f []) s w e := by
  simp [forEach]

/-- A loop stops in its body for one of the elements. -/
theorem stops_forEach_mem {f : β → Code σ τ ε Unit} {xs : List β} {s : σ} {w : List τ} {e : ε}
    (h : Stops (forEach f xs) s w e) :
    ∃ x ∈ xs, ∃ s' w₁ w₂, Stops (f x) s' w₂ e ∧ w = w₁ ++ w₂ := by
  induction xs generalizing s w with
  | nil => exact absurd h stops_forEach_nil
  | cons x xs ih =>
    rw [forEach] at h
    obtain k | ⟨w₁, _, s', w₂, -, h₂, rfl⟩ := stops_bind.mp h
    · exact ⟨x, List.mem_cons_self, s, [], w, k, rfl⟩
    · obtain ⟨y, hy, s'', v₁, v₂, k, rfl⟩ := ih h₂
      exact ⟨y, List.mem_cons_of_mem x hy, s'', w₁ ++ v₁, v₂, k, by simp⟩

/-! ## Code that never stops -/

/-- No run of `m` stops. -/
def Total (m : Code σ τ ε α) : Prop := ∀ ⦃s w e⦄, ¬ Stops m s w e

/-- A run of code that never stops. -/
theorem Total.runs {m : Code σ τ ε α} (h : Total m) (s : σ) : ∃ w a s', Runs m s w a s' := by
  rcases runs_or_stops m s with ⟨a, s', hr⟩ | ⟨e, hs⟩
  · exact ⟨_, a, s', hr⟩
  · exact absurd hs (@h s _ e)

theorem total_bind {m : Code σ τ ε α} {f : α → Code σ τ ε β} (hm : Total m)
    (hf : ∀ a, Total (f a)) : Total (m >>= f) := by
  intro s w e h
  obtain k | ⟨_, a, _, _, -, k, -⟩ := stops_bind.mp h
  · exact hm k
  · exact hf a k

theorem total_runIf {p : Prop} [Decidable p] {m : Code σ τ ε Unit} (hm : p → Total m) :
    Total (runIf p m) := by
  intro s w e h
  obtain ⟨hp, k⟩ := stops_runIf.mp h
  exact hm hp k

theorem total_forEach {f : β → Code σ τ ε Unit} {xs : List β} (hf : ∀ x ∈ xs, Total (f x)) :
    Total (forEach f xs) := by
  intro s w e h
  obtain ⟨x, hx, _, _, _, k, -⟩ := stops_forEach_mem h
  exact hf x hx k

/-! ## Faults that are allowed -/

/-- From the states in `I` the code stops only with faults that `Q` allows there. Its runs keep `I`,
and what `Q` allows after a run it allows before, so that the rest of the code may rely on `Q` as
well. -/
structure StopsOnly (I : σ → Prop) (Q : σ → ε → Prop) (m : Code σ τ ε α) : Prop where
  stops : ∀ ⦃s w e⦄, I s → Stops m s w e → Q s e
  keeps : ∀ ⦃s w a s'⦄, I s → Runs m s w a s' → I s'
  back : ∀ ⦃s w a s' e⦄, I s → Runs m s w a s' → Q s' e → Q s e

variable {I : σ → Prop} {Q : σ → ε → Prop}

theorem stopsOnly_pure (a : α) : StopsOnly I Q (pure a : Code σ τ ε α) where
  stops _ _ _ _ h := absurd h stops_pure
  keeps _ _ _ _ hs h := (runs_pure.mp h).2.2 ▸ hs
  back _ _ _ _ _ _ h hq := (runs_pure.mp h).2.2 ▸ hq

/-- The rest of the code needs to be looked at for the values that the first part returns. -/
theorem stopsOnly_bind_of {m : Code σ τ ε α} {f : α → Code σ τ ε β} (hm : StopsOnly I Q m)
    (hf : ∀ ⦃s w a s'⦄, Runs m s w a s' → StopsOnly I Q (f a)) : StopsOnly I Q (m >>= f) where
  stops s w e hs h := by
    obtain k | ⟨_, a, _, _, h₁, h₂, -⟩ := stops_bind.mp h
    · exact hm.stops hs k
    · exact hm.back hs h₁ ((hf h₁).stops (hm.keeps hs h₁) h₂)
  keeps s w b s' hs h := by
    obtain ⟨_, a, _, _, h₁, h₂, -⟩ := runs_bind.mp h
    exact (hf h₁).keeps (hm.keeps hs h₁) h₂
  back s w b s' e hs h hq := by
    obtain ⟨_, a, _, _, h₁, h₂, -⟩ := runs_bind.mp h
    exact hm.back hs h₁ ((hf h₁).back (hm.keeps hs h₁) h₂ hq)

theorem stopsOnly_bind {m : Code σ τ ε α} {f : α → Code σ τ ε β} (hm : StopsOnly I Q m)
    (hf : ∀ a, StopsOnly I Q (f a)) : StopsOnly I Q (m >>= f) :=
  stopsOnly_bind_of hm fun _ _ a _ _ => hf a

/-- Reading the state gives the rest of the code that very state. -/
theorem stopsOnly_get_bind {f : σ → Code σ τ ε β} (hf : ∀ s, StopsOnly I Q (f s)) :
    StopsOnly I Q (get >>= f) where
  stops s _ _ hs h := (hf s).stops hs (stops_get_bind.mp h)
  keeps s _ _ _ hs h := (hf s).keeps hs (runs_get_bind.mp h)
  back s _ _ _ _ hs h hq := (hf s).back hs (runs_get_bind.mp h) hq

theorem stopsOnly_ite {c : Prop} [Decidable c] {m n : Code σ τ ε α} (hm : StopsOnly I Q m)
    (hn : StopsOnly I Q n) : StopsOnly I Q (if c then m else n) := by
  split
  · exact hm
  · exact hn

theorem stopsOnly_runIf {p : Prop} [Decidable p] {m : Code σ τ ε Unit} (hm : StopsOnly I Q m) :
    StopsOnly I Q (runIf p m) := stopsOnly_ite hm (stopsOnly_pure ())

theorem stopsOnly_forEach {f : β → Code σ τ ε Unit} {xs : List β}
    (hf : ∀ x ∈ xs, StopsOnly I Q (f x)) : StopsOnly I Q (forEach f xs) := by
  induction xs with
  | nil => exact stopsOnly_pure ()
  | cons x xs ih =>
    refine stopsOnly_bind (hf x List.mem_cons_self) fun _ => ih fun y hy => ?_
    exact hf y (List.mem_cons_of_mem x hy)

/-! ## Events -/

theorem events_bind_of_runs {m : Code σ τ ε α} {f : α → Code σ τ ε β} {s s' : σ} {w : List τ}
    {a : α} (h : Runs m s w a s') : ((m >>= f) s).events = w ++ (f a s').events := by
  change (Code.bind m f s).events = _
  rw [Code.bind, h]

theorem events_bind_of_stops {m : Code σ τ ε α} {f : α → Code σ τ ε β} {s : σ} {w : List τ}
    {e : ε} (h : Stops m s w e) : ((m >>= f) s).events = w := by
  change (Code.bind m f s).events = _
  rw [Code.bind, h]

theorem events_bind_of_silent {m : Code σ τ ε α} {f : α → Code σ τ ε β} {s : σ}
    (hf : ∀ a s', (f a s').events = []) : ((m >>= f) s).events = (m s).events := by
  rcases runs_or_stops m s with ⟨a, s', h⟩ | ⟨e, h⟩
  · rw [events_bind_of_runs h, hf, List.append_nil]
  · exact events_bind_of_stops h

/-- The events of a sequence are those of its parts. -/
theorem mem_events_bind {m : Code σ τ ε α} {f : α → Code σ τ ε β} {s : σ} {x : τ} :
    x ∈ ((m >>= f) s).events ↔
      x ∈ (m s).events ∨ ∃ w a s', Runs m s w a s' ∧ x ∈ (f a s').events := by
  rcases runs_or_stops m s with ⟨a, s', h⟩ | ⟨e, h⟩
  · rw [events_bind_of_runs h, List.mem_append]
    constructor
    · rintro (hx | hx)
      · exact Or.inl hx
      · exact Or.inr ⟨_, a, s', h, hx⟩
    · rintro (hx | ⟨w, b, t, h', hx⟩)
      · exact Or.inl hx
      · rw [Runs] at h h'
        have heq := h.symm.trans h'
        cases heq
        exact Or.inr hx
  · rw [events_bind_of_stops h]
    constructor
    · exact Or.inl
    · rintro (hx | ⟨w, b, t, h', -⟩)
      · exact hx
      · exact absurd h (not_stops_of_runs h')

/-- Every event of `m`, also of a run that stops, satisfies `P`. -/
def Emits (P : τ → Prop) (m : Code σ τ ε α) : Prop := ∀ s, ∀ x ∈ (m s).events, P x

variable {P : τ → Prop}

/-- Code without events. -/
theorem emits_of_silent {m : Code σ τ ε α} (hruns : ∀ s w a s', Runs m s w a s' → w = [])
    (hstops : ∀ s w e, Stops m s w e → w = []) : Emits P m := by
  intro s x hx
  rcases runs_or_stops m s with ⟨a, s', h⟩ | ⟨e, h⟩
  · rw [hruns _ _ _ _ h] at hx
    cases hx
  · rw [hstops _ _ _ h] at hx
    cases hx

theorem emits_pure (a : α) : Emits P (pure a : Code σ τ ε α) := fun _ _ hx => by cases hx

theorem emits_get : Emits P (get : Code σ τ ε σ) := fun _ _ hx => by cases hx

theorem emits_modify (f : σ → σ) : Emits P (modify f : Code σ τ ε Unit) := fun _ _ hx => by cases hx

theorem emits_throw (e : ε) : Emits P (throw e : Code σ τ ε α) := fun _ _ hx => by cases hx

theorem emits_bind {m : Code σ τ ε α} {f : α → Code σ τ ε β} (hm : Emits P m)
    (hf : ∀ a, Emits P (f a)) : Emits P (m >>= f) := by
  intro s x hx
  change x ∈ (Code.bind m f s).events at hx
  have hs := hm s
  unfold Code.bind at hx
  rcases hms : m s with ⟨w, e | ⟨a, s'⟩⟩
  · rw [hms] at hx hs
    exact hs x hx
  · rw [hms] at hx hs
    rcases List.mem_append.mp hx with hx | hx
    · exact hs x hx
    · exact hf a s' x hx

theorem emits_ite {c : Prop} [Decidable c] {m n : Code σ τ ε α} (hm : Emits P m)
    (hn : Emits P n) : Emits P (if c then m else n) := by
  split
  · exact hm
  · exact hn

theorem emits_require {p : Prop} [Decidable p] (e : ε) :
    Emits P (require p e : Code σ τ ε Unit) := emits_ite (emits_pure ()) (emits_throw e)

theorem emits_runIf {p : Prop} [Decidable p] {m : Code σ τ ε Unit} (hm : Emits P m) :
    Emits P (runIf p m) := emits_ite hm (emits_pure ())

theorem emits_forEach {f : β → Code σ τ ε Unit} {xs : List β} (hf : ∀ x ∈ xs, Emits P (f x)) :
    Emits P (forEach f xs) := by
  induction xs with
  | nil => exact emits_pure ()
  | cons x xs ih =>
    refine emits_bind (hf x List.mem_cons_self) fun _ => ih fun y hy => ?_
    exact hf y (List.mem_cons_of_mem x hy)

end SeCloak.Misc.Code
