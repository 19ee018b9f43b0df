import Mathlib.Tactic.Common

/-!
# Byte-addressed memory

A byte for each address, with 32-bit words that are loaded and stored at any address, the low byte
first. Two words overlap if their addresses are less than four apart.
-/

namespace SeCloak.Misc

/-- Memory, a byte for each address. -/
def Bytes := Nat → BitVec 8

namespace Bytes

/-- The word at the address `a`. -/
def load (m : Bytes) (a : Nat) : BitVec 32 := m (a + 3) ++ m (a + 2) ++ m (a + 1) ++ m a

/-- The memory with the word `v` at the address `a`. -/
def store (m : Bytes) (a : Nat) (v : BitVec 32) : Bytes := fun x =>
  if a ≤ x ∧ x < a + 4 then v.extractLsb' (8 * (x - a)) 8 else m x

variable {m m' : Bytes} {a b x : Nat} {v : BitVec 32}

theorem store_apply_of_outside (h : x < a ∨ a + 4 ≤ x) : store m a v x = m x := by
  rw [store, if_neg (by omega)]

theorem store_apply_add {k : Nat} (hk : k < 4) : store m a v (a + k) = v.extractLsb' (8 * k) 8 := by
  rw [store, if_pos (by omega), Nat.add_sub_cancel_left]

@[simp] theorem load_store : load (store m a v) a = v := by
  have h0 : store m a v a = v.extractLsb' 0 8 := store_apply_add (k := 0) (by decide)
  rw [load, store_apply_add (by decide), store_apply_add (by decide), store_apply_add (by decide), h0]
  apply BitVec.eq_of_getLsbD_eq
  intro i hi
  simp only [BitVec.getLsbD_append, BitVec.getLsbD_extractLsb']
  grind

/-- A word is determined by its four bytes. -/
theorem load_congr (h : ∀ x, a ≤ x → x < a + 4 → m' x = m x) : load m' a = load m a := by
  rw [load, load, h (a + 3) (by omega) (by omega), h (a + 2) (by omega) (by omega),
    h (a + 1) (by omega) (by omega), h a (by omega) (by omega)]

theorem load_store_of_apart (h : a + 4 ≤ b ∨ b + 4 ≤ a) : load (store m a v) b = load m b := by
  refine load_congr fun x hlo hhi => ?_
  exact store_apply_of_outside (by omega)

end Bytes

end SeCloak.Misc
