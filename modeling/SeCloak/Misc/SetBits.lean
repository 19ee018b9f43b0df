import Mathlib.Data.List.Sort
import SeCloak.Misc.BitField

/-!
# The set bits of a word

The bits that are set in a word, the highest first, and the loop that finds the highest one with
a count of leading zeros, does something for it and clears it, until the word is zero.
-/

namespace SeCloak.Misc

variable {w : Nat}

/-- The set bits of `x`, the highest first. -/
def setBits (x : BitVec w) : List Nat := (List.range w).reverse.filter (x.getLsbD ·)

theorem mem_setBits {x : BitVec w} {i : Nat} : i ∈ setBits x ↔ x.getLsbD i = true := by
  unfold setBits
  rw [List.mem_filter, List.mem_reverse, List.mem_range]
  constructor
  · intro h
    exact h.2
  · intro h
    exact ⟨BitVec.lt_of_getLsbD h, h⟩

theorem setBits_sorted (x : BitVec w) : (setBits x).Pairwise (fun i j => j < i) := by
  apply List.Pairwise.filter
  rw [List.pairwise_reverse]
  exact List.pairwise_lt_range

theorem setBits_nodup (x : BitVec w) : (setBits x).Nodup :=
  (setBits_sorted x).imp fun h => (Nat.ne_of_lt h).symm

@[simp] theorem setBits_zero : setBits (0#w) = [] := by
  apply List.eq_nil_iff_forall_not_mem.mpr
  intro i hi
  simp [mem_setBits] at hi

theorem getLsbD_clear (x : BitVec w) (i j : Nat) :
    (x &&& ~~~BitVec.twoPow w i).getLsbD j = (x.getLsbD j && !decide (j = i)) := by
  by_cases hj : j < w
  · rw [BitVec.getLsbD_and, BitVec.getLsbD_not, BitVec.getLsbD_twoPow]
    by_cases h : j = i
    · subst h
      simp [hj]
    · simp [hj, h, Ne.symm h]
  · rw [BitVec.getLsbD_of_ge _ _ (Nat.not_lt.mp hj), BitVec.getLsbD_of_ge _ _ (Nat.not_lt.mp hj)]
    rfl

/-- The highest bit comes first, and the rest are those of the word without it. -/
theorem setBits_eq_cons {x : BitVec w} {i : Nat} (hi : x.getLsbD i = true)
    (hmax : ∀ j, i < j → x.getLsbD j = false) :
    setBits x = i :: setBits (x &&& ~~~BitVec.twoPow w i) := by
  have hrest : ∀ j, j ∈ setBits (x &&& ~~~BitVec.twoPow w i) ↔ x.getLsbD j = true ∧ j ≠ i := by
    intro j
    rw [mem_setBits, getLsbD_clear]
    simp
  apply (setBits_sorted x).eq_of_mem_iff
  · apply List.Pairwise.cons _ (setBits_sorted _)
    intro j hj
    obtain ⟨hbit, hne⟩ := (hrest j).mp hj
    apply Nat.lt_of_le_of_ne _ hne
    apply Nat.le_of_not_lt
    intro hlt
    rw [hmax j hlt] at hbit
    cases hbit
  · intro j
    rw [mem_setBits, List.mem_cons, hrest]
    constructor
    · intro hbit
      by_cases hji : j = i
      · exact Or.inl hji
      · exact Or.inr ⟨hbit, hji⟩
    · rintro (rfl | ⟨hbit, -⟩)
      · exact hi
      · exact hbit

/-- Clearing a bit makes the word smaller. -/
theorem toNat_clear_lt {x : BitVec w} {i : Nat} (hi : x.getLsbD i = true) :
    (x &&& ~~~BitVec.twoPow w i).toNat < x.toNat := by
  have hle : (x &&& ~~~BitVec.twoPow w i).toNat ≤ x.toNat := by
    rw [BitVec.toNat_and]
    exact Nat.and_le_left
  apply Nat.lt_of_le_of_ne hle
  intro heq
  have hsame := BitVec.eq_of_toNat_eq heq
  rw [← hsame, getLsbD_clear] at hi
  simp at hi

/-- `fls`: the number of the highest bit that is set, counted from one. -/
def fls (x : BitVec w) : Nat := w - x.clz.toNat

theorem getLsbD_fls {x : BitVec w} (h : x ≠ 0#w) : x.getLsbD (fls x - 1) = true := by
  have hw : 0 < w := by
    apply Nat.pos_of_ne_zero
    rintro rfl
    exact h (BitVec.of_length_zero)
  have hbit := BitVec.getLsbD_true_clz_of_ne_zero hw h
  unfold fls
  rwa [Nat.sub_right_comm]

theorem getLsbD_of_fls_le {x : BitVec w} {j : Nat} (h : fls x - 1 < j) : x.getLsbD j = false := by
  rw [← BitVec.testBit_toNat]
  apply Nat.testBit_lt_two_pow
  have hbelow : x.toNat < 2 ^ fls x := BitVec.toNat_lt_two_pow_sub_clz
  apply Nat.lt_of_lt_of_le hbelow
  apply Nat.pow_le_pow_right (by decide)
  omega

/-- What the loop does first. -/
theorem setBits_fls {x : BitVec w} (h : x ≠ 0#w) :
    setBits x = (fls x - 1) :: setBits (x &&& ~~~BitVec.twoPow w (fls x - 1)) :=
  setBits_eq_cons (getLsbD_fls h) fun _ hj => getLsbD_of_fls_le hj

end SeCloak.Misc
