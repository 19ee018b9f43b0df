import Mathlib.Algebra.Group.Nat.Defs
import Mathlib.Data.List.Basic
import Mathlib.Tactic.Common

/-!
# Memory of words

Words at 32-bit addresses that are all at a multiple of four from one another, as a block of registers
is stored and loaded: `put` stores some words from an address on and `get` loads them. Addresses are
written as a base with an offset, so that two ranges of one structure are compared by their offsets.
-/

namespace SeCloak.Misc

/-- A word for each address. -/
abbrev Words := BitVec 32 → BitVec 32

/-- The address `4 * i` bytes behind `p`. -/
def wordAt (p : BitVec 32) (i : Nat) : BitVec 32 := p + BitVec.ofNat 32 (4 * i)

namespace Words

/-- The `n` words from `a` on. -/
def get (m : Words) (a : BitVec 32) (n : Nat) : List (BitVec 32) := (List.range n).map fun i => m (wordAt a i)

/-- The words `vs` are stored from `a` on. -/
def put (m : Words) (a : BitVec 32) (vs : List (BitVec 32)) : Words := fun x =>
  if (x - a).toNat % 4 = 0 then (vs[(x - a).toNat / 4]?).getD (m x) else m x

variable {m : Words} {p a : BitVec 32} {vs ws : List (BitVec 32)} {i j k n : Nat}

theorem wordAt_zero : wordAt p 0 = p := by simp [wordAt]

theorem wordAt_wordAt : wordAt (wordAt p i) j = wordAt p (i + j) := by
  rw [wordAt, wordAt, wordAt, BitVec.add_assoc, ← BitVec.ofNat_add, Nat.mul_add]

theorem wordAt_sub (h : j ≤ i) : wordAt p i - BitVec.ofNat 32 (4 * j) = wordAt p (i - j) := by
  have hsplit : wordAt p i = wordAt p (i - j) + BitVec.ofNat 32 (4 * j) := by
    rw [← wordAt, wordAt_wordAt, Nat.sub_add_cancel h]
  rw [hsplit, BitVec.add_sub_cancel]

theorem wordAt_sub_self : wordAt p i - BitVec.ofNat 32 (4 * i) = p := by
  unfold wordAt
  exact BitVec.add_sub_cancel _ _

theorem wordAt_sub_wordAt (hi : i < 2 ^ 30) (hj : j < 2 ^ 30) :
    (wordAt p j - wordAt p i).toNat = if i ≤ j then 4 * (j - i) else 2 ^ 32 - 4 * (i - j) := by
  have hdiff : wordAt p j - wordAt p i = BitVec.ofNat 32 (4 * j) - BitVec.ofNat 32 (4 * i) := by
    unfold wordAt
    generalize BitVec.ofNat 32 (4 * j) = x
    generalize BitVec.ofNat 32 (4 * i) = y
    bv_omega
  rw [hdiff, BitVec.toNat_sub, BitVec.toNat_ofNat, BitVec.toNat_ofNat]
  split <;> omega

/-- A word of the stored range is the one that was stored, and every other word stays. -/
theorem put_apply (hi : i + vs.length ≤ 2 ^ 30) (hj : j < 2 ^ 30) (hlt : i < 2 ^ 30) :
    put m (wordAt p i) vs (wordAt p j) =
      if i ≤ j then (vs[j - i]?).getD (m (wordAt p j)) else m (wordAt p j) := by
  unfold put
  rw [wordAt_sub_wordAt hlt hj]
  by_cases h : i ≤ j
  · rw [if_pos h, if_pos h, if_pos (by omega), Nat.mul_div_cancel_left _ (by decide)]
  · rw [if_neg h, if_neg h, if_pos (by omega)]
    have hout : vs.length ≤ (2 ^ 32 - 4 * (i - j)) / 4 := by omega
    rw [List.getElem?_eq_none hout]
    rfl

theorem put_cons_self {v : BitVec 32} : put m a (v :: vs) a = v := by
  unfold put
  rw [BitVec.sub_self]
  rfl

/-- A word beside the stored range stays. -/
theorem put_apart (hi : i + vs.length ≤ 2 ^ 30) (hj : j < 2 ^ 30) (hlt : i < 2 ^ 30)
    (h : j < i ∨ i + vs.length ≤ j) : put m (wordAt p i) vs (wordAt p j) = m (wordAt p j) := by
  rw [put_apply hi hj hlt]
  split
  · rw [List.getElem?_eq_none (by omega)]
    rfl
  · rfl

@[simp] theorem get_length : (get m a n).length = n := by simp [get]

theorem get_getElem? : (get m a n)[i]? = if i < n then some (m (wordAt a i)) else none := by
  unfold get
  rw [List.getElem?_map]
  by_cases h : i < n
  · rw [List.getElem?_range h, if_pos h]
    rfl
  · rw [List.getElem?_eq_none (by simpa using h), if_neg h]
    rfl

/-- The words that were stored are loaded. -/
theorem get_put (h : vs.length ≤ 2 ^ 30) (hn : vs.length = n) : get (put m a vs) a n = vs := by
  subst hn
  apply List.ext_getElem?
  intro k
  rw [get_getElem?]
  by_cases hk : k < vs.length
  · have hw := @put_apply m a vs 0 k (by omega) (by omega) (by decide)
    rw [wordAt_zero] at hw
    rw [if_pos hk, hw, if_pos (Nat.zero_le k), Nat.sub_zero, List.getElem?_eq_getElem hk]
    rfl
  · rw [if_neg hk, List.getElem?_eq_none (Nat.not_lt.mp hk)]

/-- Words beside the stored range are loaded as before. -/
theorem get_put_apart (hi : i + vs.length ≤ 2 ^ 30) (hj : j + n ≤ 2 ^ 30) (hlt : i < 2 ^ 30)
    (h : j + n ≤ i ∨ i + vs.length ≤ j) :
    get (put m (wordAt p i) vs) (wordAt p j) n = get m (wordAt p j) n := by
  apply List.ext_getElem?
  intro k
  rw [get_getElem?, get_getElem?]
  by_cases hk : k < n
  · rw [if_pos hk, if_pos hk, wordAt_wordAt, put_apply hi (by omega) hlt]
    split
    · rw [List.getElem?_eq_none (by omega)]
      rfl
    · rfl
  · rw [if_neg hk, if_neg hk]

/-- Words behind a base are loaded as before, if only words below it were stored. -/
theorem get_put_below (hvs : vs.length ≤ 2 ^ 29) (hj : j + n ≤ 2 ^ 29) :
    get (put m (p - BitVec.ofNat 32 (4 * vs.length)) vs) (wordAt p j) n = get m (wordAt p j) n := by
  have hbase : wordAt (p - BitVec.ofNat 32 (4 * vs.length)) vs.length = p := by
    unfold wordAt
    bv_omega
  have h := @get_put_apart m (p - BitVec.ofNat 32 (4 * vs.length)) vs 0 (vs.length + j) n
    (by omega) (by omega) (by decide) (by omega)
  rwa [wordAt_zero, ← wordAt_wordAt, hbase] at h

/-- Two ranges, one behind the other, are stored as one. -/
theorem put_append (hn : vs.length = n) (h : vs.length + ws.length ≤ 2 ^ 30)
    (hlt : vs.length < 2 ^ 30) : put (put m a vs) (wordAt a n) ws = put m a (vs ++ ws) := by
  subst hn
  funext x
  have hd : (x - wordAt a vs.length).toNat = if 4 * vs.length ≤ (x - a).toNat
      then (x - a).toNat - 4 * vs.length else (x - a).toNat + 2 ^ 32 - 4 * vs.length := by
    have hsub : x - wordAt a vs.length = (x - a) - BitVec.ofNat 32 (4 * vs.length) := by
      unfold wordAt
      bv_omega
    have hx := (x - a).isLt
    rw [hsub, BitVec.toNat_sub, BitVec.toNat_ofNat]
    split <;> omega
  have hx := (x - a).isLt
  unfold put
  rw [hd]
  generalize (x - a).toNat = d at hx ⊢
  by_cases hle : 4 * vs.length ≤ d
  · rw [if_pos hle]
    by_cases h4 : d % 4 = 0
    · rw [if_pos (by omega), if_pos h4, if_pos h4, List.getElem?_append_right (by omega),
        List.getElem?_eq_none (l := vs) (by omega)]
      have hdiv : (d - 4 * vs.length) / 4 = d / 4 - vs.length := by omega
      rw [hdiv]
      rfl
    · rw [if_neg (by omega), if_neg h4, if_neg h4]
  · rw [if_neg hle]
    by_cases h4 : d % 4 = 0
    · rw [if_pos (by omega), if_pos h4, if_pos h4, List.getElem?_append_left (by omega),
        List.getElem?_eq_none (l := ws) (by omega)]
      rfl
    · rw [if_neg (by omega), if_neg h4, if_neg h4]

theorem get_congr {m' : Words} (h : ∀ i, i < n → m (wordAt a i) = m' (wordAt a i)) :
    get m a n = get m' a n :=
  List.map_congr_left fun i hi => h i (List.mem_range.mp hi)

theorem get_one : get m a 1 = [m a] := by
  unfold get
  rw [List.range_one, List.map_singleton, wordAt_zero]

theorem apply_eq {v : BitVec 32} (h : get m a 1 = [v]) : m a = v := by
  rw [get_one] at h
  exact List.head_eq_of_cons_eq h

theorem apply_of_get {v : BitVec 32} (h : get m a n = vs) (hi : vs[i]? = some v) :
    m (wordAt a i) = v := by
  rw [← h, get_getElem?] at hi
  split at hi
  · exact Option.some.inj hi
  · cases hi

end Words

end SeCloak.Misc
