import Mathlib.Data.List.Forall2
import Mathlib.Tactic.Common

/-!
# Computations that return or fail

What is known once a chain of `Except` computations has returned: each of its parts has, with
results that are related one by one.
-/

namespace SeCloak.Misc

variable {α β ε : Type}

theorem except_bind_ok {x : Except ε α} {f : α → Except ε β} {b : β} (h : x >>= f = .ok b) :
    ∃ a, x = .ok a ∧ f a = .ok b := by
  cases x with
  | error e => cases h
  | ok a => exact ⟨a, rfl, h⟩

theorem except_map_ok {x : Except ε α} {f : α → β} {b : β} (h : x.map f = .ok b) :
    ∃ a, x = .ok a ∧ f a = b := by
  cases x with
  | error e => cases h
  | ok a => exact ⟨a, rfl, Except.ok.inj h⟩

theorem forall₂_of_mapM {f : α → Except ε β} {xs : List α} {ys : List β} (h : xs.mapM f = .ok ys) :
    List.Forall₂ (fun x y => f x = .ok y) xs ys := by
  induction xs generalizing ys with
  | nil =>
    obtain rfl := Except.ok.inj h
    exact .nil
  | cons x xs ih =>
    rw [List.mapM_cons] at h
    obtain ⟨y, hy, h⟩ := except_bind_ok h
    obtain ⟨ys', hys, h⟩ := except_bind_ok h
    obtain rfl := Except.ok.inj h
    exact .cons hy (ih hys)

section Forall₂

variable {R : α → β → Prop} {xs : List α} {ys : List β}

/-- Every element on the right has one on the left it is related to. -/
theorem exists_of_forall₂ (h : List.Forall₂ R xs ys) {y : β} (hy : y ∈ ys) : ∃ x ∈ xs, R x y := by
  induction h with
  | nil => cases hy
  | @cons x z xs ys hxz _ ih =>
    rcases List.mem_cons.mp hy with rfl | hy
    · exact ⟨x, List.mem_cons_self, hxz⟩
    · obtain ⟨x', hx', hR⟩ := ih hy
      exact ⟨x', List.mem_cons_of_mem _ hx', hR⟩

/-- What holds between any two elements on the left holds between the ones they are related to. -/
theorem pairwise_of_forall₂ {P : α → α → Prop} {Q : β → β → Prop} (h : List.Forall₂ R xs ys)
    (hPQ : ∀ x x' y y', P x x' → R x y → R x' y' → Q y y') (hxs : xs.Pairwise P) : ys.Pairwise Q := by
  induction h with
  | nil => exact .nil
  | @cons x y xs ys hxy hrest ih =>
    obtain ⟨hx, hxs⟩ := List.pairwise_cons.mp hxs
    refine List.pairwise_cons.mpr ⟨fun y' hy' => ?_, ih hxs⟩
    obtain ⟨x', hx', hR⟩ := exists_of_forall₂ hrest hy'
    exact hPQ x x' y y' (hx x' hx') hxy hR

end Forall₂

end SeCloak.Misc
