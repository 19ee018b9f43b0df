import Mathlib.Data.Nat.Digits.Defs
import Mathlib.Tactic.Ring

/-!
# Numbers of several limbs

A number is a list of limbs in base `b`, the most significant limb first. Where the number is itself
below the base, all limbs but the last are zero.
-/

namespace SeCloak.Misc

variable {b x : Nat} {xs : List Nat}

/-- The number of a list of limbs. -/
def ofLimbs (b : Nat) (xs : List Nat) : Nat := Nat.ofDigits b xs.reverse

theorem ofLimbs_cons (b x : Nat) (xs : List Nat) :
    ofLimbs b (x :: xs) = x * b ^ xs.length + ofLimbs b xs := by
  unfold ofLimbs
  rw [List.reverse_cons, Nat.ofDigits_append, Nat.ofDigits_singleton, List.length_reverse]
  ring

/-- The first limb of a number below the base is the number itself exactly if it is the only limb or
the number is zero. -/
theorem head_eq_ofLimbs_iff (h : ofLimbs b (x :: xs) < b) :
    x = ofLimbs b (x :: xs) ↔ xs = [] ∨ ofLimbs b (x :: xs) = 0 := by
  cases xs with
  | nil => simp [ofLimbs]
  | cons y ys =>
    -- a first limb above zero would be worth at least the base
    have hzero : x = 0 := by
      by_contra hne
      have hle : b ≤ x * b ^ (y :: ys).length := by
        rw [List.length_cons, pow_succ, ← mul_assoc]
        refine Nat.le_mul_of_pos_left b (Nat.mul_pos (Nat.pos_of_ne_zero hne) ?_)
        exact Nat.pow_pos (Nat.zero_lt_of_lt h)
      rw [ofLimbs_cons] at h
      omega
    rw [hzero]
    simp [eq_comm]

end SeCloak.Misc
