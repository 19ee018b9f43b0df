import Mathlib.Data.Nat.Bitwise
import Mathlib.Tactic.Common

/-!
# Bits and fields of registers

Read-modify-write of a register, bit by bit: what `(r & ~mask) | (v & mask)` leaves in each bit,
and the single-bit forms `r | (1 << i)`, `r & ~(1 << i)` and the test `r & (1 << i)`. `1 << i`
is `BitVec.twoPow`.
-/

namespace SeCloak.Misc

variable {w : Nat}

/-- Replace the bits of `r` that are in `mask` by those of `v`. -/
def maskWrite (r mask v : BitVec w) : BitVec w := (r &&& ~~~mask) ||| (v &&& mask)

theorem getLsbD_maskWrite (r mask v : BitVec w) (i : Nat) :
    (maskWrite r mask v).getLsbD i = if mask.getLsbD i then v.getLsbD i else r.getLsbD i := by
  by_cases hi : i < w
  · simp only [maskWrite, BitVec.getLsbD_or, BitVec.getLsbD_and, BitVec.getLsbD_not, hi,
      decide_true, Bool.true_and]
    cases mask.getLsbD i <;> simp
  · simp [maskWrite, BitVec.getLsbD_of_ge, Nat.not_lt.mp hi]

/-- The later of two writes through a mask counts. -/
theorem maskWrite_maskWrite (r mask v v' : BitVec w) :
    maskWrite (maskWrite r mask v) mask v' = maskWrite r mask v' := by
  apply BitVec.eq_of_getLsbD_eq
  intro i _
  rw [getLsbD_maskWrite, getLsbD_maskWrite, getLsbD_maskWrite]
  split <;> rfl

/-- Writing what is already there changes nothing. -/
theorem maskWrite_same {r mask v : BitVec w}
    (h : ∀ i, mask.getLsbD i = true → v.getLsbD i = r.getLsbD i) : maskWrite r mask v = r := by
  apply BitVec.eq_of_getLsbD_eq
  intro i _
  rw [getLsbD_maskWrite]
  split
  · rename_i hm
    exact h i hm
  · rfl

/-- The field of `n` bits at `off` is untouched by a write through a mask outside of it. -/
theorem extract_maskWrite_of_disjoint {r mask v : BitVec w} {off n : Nat}
    (h : ∀ i < n, mask.getLsbD (off + i) = false) :
    (maskWrite r mask v).extractLsb' off n = r.extractLsb' off n := by
  apply BitVec.eq_of_getLsbD_eq
  intro i hi
  simp [hi, getLsbD_maskWrite, h i hi]

/-- The field of `n` bits at `off` is taken from `v` by a write through a mask that covers it. -/
theorem extract_maskWrite_of_covers {r mask v : BitVec w} {off n : Nat}
    (h : ∀ i < n, mask.getLsbD (off + i) = true) :
    (maskWrite r mask v).extractLsb' off n = v.extractLsb' off n := by
  apply BitVec.eq_of_getLsbD_eq
  intro i hi
  simp [hi, getLsbD_maskWrite, h i hi]

/-- The bits outside of the mask stay. -/
theorem maskWrite_and_of_disjoint {r mask v keep : BitVec w} (h : mask &&& keep = 0#w) :
    maskWrite r mask v &&& keep = r &&& keep := by
  apply BitVec.eq_of_getLsbD_eq
  intro i hi
  have hb := congrArg (fun x : BitVec w => x.getLsbD i) h
  simp only [BitVec.getLsbD_and, BitVec.getLsbD_zero] at hb
  rw [BitVec.getLsbD_and, BitVec.getLsbD_and, getLsbD_maskWrite]
  cases hm : mask.getLsbD i <;> simp_all

@[simp] theorem getLsbD_or_twoPow (r : BitVec w) (i j : Nat) (hi : i < w) :
    (r ||| BitVec.twoPow w i).getLsbD j = (r.getLsbD j || decide (i = j)) := by
  simp [BitVec.getLsbD_twoPow, hi]

@[simp] theorem getLsbD_and_not_twoPow (r : BitVec w) (i j : Nat) (hi : i < w) :
    (r &&& ~~~BitVec.twoPow w i).getLsbD j = (r.getLsbD j && !decide (i = j)) := by
  by_cases hj : j < w
  · simp only [BitVec.getLsbD_and, BitVec.getLsbD_not, BitVec.getLsbD_twoPow, hi, hj,
      decide_true, Bool.true_and]
  · simp [BitVec.getLsbD_of_ge, Nat.not_lt.mp hj]

theorem getLsbD_three (k : Nat) : (3#32).getLsbD k = decide (k < 2) := by
  have hbits : 3#32 = BitVec.twoPow 32 0 ||| BitVec.twoPow 32 1 := by decide
  rw [hbits, BitVec.getLsbD_or, BitVec.getLsbD_twoPow, BitVec.getLsbD_twoPow]
  by_cases hk : k < 2
  · have : k = 0 ∨ k = 1 := by omega
    rcases this with rfl | rfl <;> decide
  · have h0 : 0 ≠ k := by omega
    have h1 : 1 ≠ k := by omega
    simp [hk, h0, h1]

/-! ## A base address with flags below it -/

section Aligned

variable {a b : BitVec w} {k : Nat}

/-- A multiple of a power of two has no bits below it. -/
theorem aligned_iff : a.toNat % 2 ^ k = 0 ↔ ∀ i < k, a.getLsbD i = false := by
  constructor
  · intro ha i hi
    have hbit := congrArg (fun n => Nat.testBit n i) ha
    simp only [Nat.testBit_mod_two_pow, hi, decide_true, Bool.true_and, Nat.zero_testBit] at hbit
    exact hbit
  · intro ha
    apply Nat.eq_of_testBit_eq
    intro i
    rw [Nat.testBit_mod_two_pow, Nat.zero_testBit]
    rcases Nat.lt_or_ge i k with hi | hi
    · have hbit : a.toNat.testBit i = false := ha i hi
      rw [hbit, Bool.and_false]
    · rw [decide_eq_false (Nat.not_lt.mpr hi), Bool.false_and]

theorem and_eq_zero_of_aligned (ha : a.toNat % 2 ^ k = 0) (hb : b.toNat < 2 ^ k) : a &&& b = 0#w := by
  apply BitVec.eq_of_getLsbD_eq
  intro i _
  rw [BitVec.getLsbD_and, BitVec.getLsbD_zero]
  rcases Nat.lt_or_ge i k with hi | hi
  · rw [aligned_iff.mp ha i hi, Bool.false_and]
  · have hlt : b.toNat < 2 ^ i := Nat.lt_of_lt_of_le hb (Nat.pow_le_pow_right (by decide) hi)
    rw [BitVec.getLsbD, BitVec.getLsbD, Nat.testBit_lt_two_pow hlt, Bool.and_false]

theorem toNat_or_of_aligned (ha : a.toNat % 2 ^ k = 0) (hb : b.toNat < 2 ^ k) :
    (a ||| b).toNat = a.toNat + b.toNat := by
  have hmul : a.toNat = 2 ^ k * (a.toNat / 2 ^ k) := by
    have hdiv := Nat.div_add_mod a.toNat (2 ^ k)
    omega
  rw [BitVec.toNat_or, hmul]
  exact (Nat.two_pow_add_eq_or_of_lt hb _).symm

end Aligned

/-! ## A bank of registers -/

/-- The low `size` bits, as `(1 << size) - 1`. -/
theorem getLsbD_lowMask {size : Nat} (hsize : size < 32) (i : Nat) :
    ((1#32 <<< size) - 1).getLsbD i = decide (i < size) := by
  have hlt : 2 ^ size < 2 ^ 32 := Nat.pow_lt_pow_right (by decide) hsize
  have hone : (1#32 <<< size).toNat = 2 ^ size := by
    rw [BitVec.toNat_shiftLeft, Nat.shiftLeft_eq, show (1#32).toNat = 1 from rfl, Nat.one_mul,
      Nat.mod_eq_of_lt hlt]
  have hle : (1 : BitVec 32) ≤ 1#32 <<< size := by
    rw [BitVec.le_def, hone]
    exact Nat.one_le_two_pow
  rw [BitVec.getLsbD, BitVec.toNat_sub_of_le hle, hone]
  exact Nat.testBit_two_pow_sub_one size i

/-- Bit `n` of a bank of words, counted through all of them. -/
def bankBit (m : Nat → BitVec 32) (n : Nat) : Bool := (m (n / 32)).getLsbD (n % 32)

theorem bankBit_word (m : Nat → BitVec 32) (i : Nat) {k : Nat} (hk : k < 32) :
    bankBit m (32 * i + k) = (m i).getLsbD k := by
  unfold bankBit
  rw [show (32 * i + k) / 32 = i by omega, show (32 * i + k) % 32 = k by omega]

end SeCloak.Misc
