import Mathlib.Tactic.Common

/-!
# Enough fuel

A loop of a program is a function of a bound on its rounds. `Ends f r` says that it ends with `r`: every
bound from some one on gives `r`.
-/

namespace SeCloak.Misc

variable {α β : Type} {f g : Nat → Option α} {a r r' : α}

/-- Every bound from some one on gives `r`. -/
def Ends (f : Nat → Option α) (r : α) : Prop := ∃ n, ∀ fuel, n ≤ fuel → f fuel = some r

theorem ends_some : Ends (fun _ => some r) r := ⟨0, fun _ _ => rfl⟩

theorem Ends.unique (h : Ends f r) (h' : Ends f r') : r = r' := by
  obtain ⟨n, hn⟩ := h
  obtain ⟨n', hn'⟩ := h'
  have heq := hn (max n n') (Nat.le_max_left n n')
  rw [hn' (max n n') (Nat.le_max_right n n')] at heq
  exact (Option.some.inj heq).symm

theorem Ends.congr (h : Ends g r) (hfg : ∀ fuel, f fuel = g fuel) : Ends f r := by
  obtain ⟨n, hn⟩ := h
  exact ⟨n, fun fuel hfuel => (hfg fuel).trans (hn fuel hfuel)⟩

/-- A round of the loop. -/
theorem Ends.round (h : Ends g r) (hfg : ∀ fuel, f (fuel + 1) = g fuel) : Ends f r := by
  obtain ⟨n, hn⟩ := h
  refine ⟨n + 1, fun fuel hfuel => ?_⟩
  obtain ⟨m, rfl⟩ := Nat.exists_eq_add_of_le hfuel
  have heq : n + 1 + m = n + m + 1 := by omega
  rw [heq, hfg]
  exact hn _ (Nat.le_add_right n m)

/-- A loop that is followed by another one. -/
theorem Ends.bind {k : α → Nat → Option β} {s : β} (h : Ends f a) (hk : Ends (k a) s) :
    Ends (fun fuel => (f fuel).bind fun x => k x fuel) s := by
  obtain ⟨n, hn⟩ := h
  obtain ⟨m, hm⟩ := hk
  refine ⟨max n m, fun fuel hfuel => ?_⟩
  dsimp only
  rw [hn fuel (by omega), Option.bind_some]
  exact hm fuel (by omega)

/-- The first one of two loops may be replaced by one that ends where it ends. -/
theorem Ends.bind_of_imp {k : α → Nat → Option β} {s : β} (h : Ends (fun fuel => (g fuel).bind fun x => k x fuel) s)
    (hg : ∀ n x, g n = some x → Ends g x) (hfg : ∀ x, Ends g x → Ends f x) :
    Ends (fun fuel => (f fuel).bind fun x => k x fuel) s := by
  obtain ⟨n, hn⟩ := h
  obtain ⟨x, hx, -⟩ := Option.bind_eq_some_iff.mp (hn n (Nat.le_refl n))
  have hgx := hg n x hx
  refine (hfg x hgx).bind ?_
  obtain ⟨m, hm⟩ := hgx
  refine ⟨max n m, fun fuel hfuel => ?_⟩
  have hend := hn fuel (by omega)
  dsimp only at hend
  rwa [hm fuel (by omega)] at hend

theorem Ends.map (h : Ends f a) (k : α → β) : Ends (fun fuel => (f fuel).map k) (k a) := by
  obtain ⟨n, hn⟩ := h
  refine ⟨n, fun fuel hfuel => ?_⟩
  dsimp only
  rw [hn fuel hfuel]
  rfl

open Classical in
/-- What a loop ends with, if it ends. -/
noncomputable def result (f : Nat → Option α) : Option α := if h : ∃ r, Ends f r then some h.choose else none

theorem Ends.result_eq (h : Ends f r) : result f = some r := by
  have hex : ∃ r, Ends f r := ⟨r, h⟩
  rw [result, dif_pos hex, hex.choose_spec.unique h]

/-! ## More rounds -/

/-- If there is a result, it is also that of `y`. -/
def Refines (x y : Option α) : Prop := ∀ r, x = some r → y = some r

section Refines

variable {x y x' y' : Option α}

theorem Refines.refl (x : Option α) : Refines x x := fun _ h => h

theorem refines_none : Refines none y := fun _ h => by cases h

theorem Refines.bind {k l : α → Option β} (h : Refines x y) (hk : ∀ a, Refines (k a) (l a)) :
    Refines (x.bind k) (y.bind l) := by
  intro r hr
  obtain ⟨a, ha, hka⟩ := Option.bind_eq_some_iff.mp hr
  rw [h a ha, Option.bind_some]
  exact hk a r hka

theorem Refines.map (h : Refines x y) (k : α → β) : Refines (x.map k) (y.map k) := by
  intro r hr
  obtain ⟨a, ha, hka⟩ := Option.map_eq_some_iff.mp hr
  rw [h a ha, Option.map_some, hka]

theorem refines_ite {c : Prop} [Decidable c] (h : Refines x y) (h' : Refines x' y') :
    Refines (if c then x else x') (if c then y else y') := by
  split
  next => exact h
  next => exact h'

end Refines

/-- A round more does not change the result. -/
def Steady (f : Nat → Option α) : Prop := ∀ n, Refines (f n) (f (n + 1))

theorem Steady.ends (h : Steady f) {n : Nat} (hn : f n = some r) : Ends f r := by
  refine ⟨n, fun fuel hfuel => ?_⟩
  obtain ⟨m, rfl⟩ := Nat.exists_eq_add_of_le hfuel
  clear hfuel
  induction m with
  | zero => exact hn
  | succ m ih => exact h (n + m) r ih

/-- What a loop ends with, which is looked for in `n` rounds first. -/
noncomputable def resultWithin (n : Nat) (f : Nat → Option α) : Option α := (f n).or (result f)

theorem Steady.resultWithin_eq (h : Steady f) (n : Nat) : resultWithin n f = result f := by
  unfold resultWithin
  cases hn : f n with
  | none => rfl
  | some r => exact (h.ends hn).result_eq.symm

end SeCloak.Misc
