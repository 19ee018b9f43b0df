import Mathlib.Data.List.Basic
import Mathlib.Tactic.Common

/-!
# Lists that end in blocks

A list ends in the blocks of some letters if its last part is one or more of the first letter, then
one or more of the second, and so on. A recogniser reads the list from left to right, so the letters
are given from the last one back.
-/

namespace SeCloak.Misc

variable {α σ : Type}

/-- The list ends with one or more of each letter; the last letter comes first. -/
def EndsInBlocks : List α → List α → Prop
  | [], _ => True
  | a :: as, xs => ∃ pre n, xs = pre ++ List.replicate (n + 1) a ∧ EndsInBlocks as pre

@[simp] theorem endsInBlocks_nil (xs : List α) : EndsInBlocks [] xs := trivial

/-- One more element starts the last block, or it makes that block longer. -/
theorem endsInBlocks_snoc {a x : α} {as xs : List α} :
    EndsInBlocks (a :: as) (xs ++ [x]) ↔
      x = a ∧ (EndsInBlocks as xs ∨ EndsInBlocks (a :: as) xs) := by
  constructor
  · rintro ⟨pre, n, hxs, has⟩
    rw [List.replicate_succ', ← List.append_assoc] at hxs
    obtain ⟨rfl, hx⟩ := List.append_inj' hxs rfl
    refine ⟨List.singleton_inj.mp hx, ?_⟩
    cases n with
    | zero => exact Or.inl (by simpa using has)
    | succ n => exact Or.inr ⟨pre, n, rfl, has⟩
  · rintro ⟨rfl, has | ⟨pre, n, rfl, has⟩⟩
    · exact ⟨xs, 0, rfl, has⟩
    · exact ⟨pre, n + 1, by simp [List.replicate_succ' (n := n + 1)], has⟩

/-- A block that leads from `q` to `q'` with its first element and stays there. -/
theorem foldl_block {step : σ → α → σ} {q q' : σ} {a : α} (hq : step q a = q')
    (hq' : step q' a = q') (n : Nat) : (List.replicate (n + 1) a).foldl step q = q' := by
  induction n generalizing q with
  | zero => simpa using hq
  | succ n ih => rw [List.replicate_succ, List.foldl_cons, hq, ih hq']

end SeCloak.Misc
