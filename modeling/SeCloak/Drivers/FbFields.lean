import SeCloak.Drivers.FbBounds
import SeCloak.Kernel.Boot

/-!
# Bit fields of CPMEM

A field is `size` bits of the bank of CPMEM words from its position on (`ipuPos`). What
`ipu_ch_param_read_field` and `ipu_ch_param_write_field` do is said bit by bit (`getLsbD_readField`,
`bankBit_writeField`), whether the field crosses a word or not; what a sequence of writes leaves
then follows for fields that are apart.
-/

namespace SeCloak
open Misc

/-- The position of bit `bit` of word `w` of a channel in CPMEM. -/
def ipuPos (channel w bit : Nat) : Nat := 32 * (channel * 16 + w * 8) + bit

/-- Bit `n` of CPMEM belongs to the field. -/
def InField (channel w bit size n : Nat) : Prop :=
  ipuPos channel w bit ≤ n ∧ n < ipuPos channel w bit + size

/-- The 160 bits of word `w` of a channel, read as one little-endian number. -/
def ipuWord (m : Nat → Word) (channel w : Nat) : BitVec 160 :=
  let reg := channel * 16 + w * 8
  m (reg + 4) ++ m (reg + 3) ++ m (reg + 2) ++ m (reg + 1) ++ m reg

section Field

variable {m : Nat → Word} {channel w bit size : Nat} {value : Word}

theorem ipuPos_eq : ipuPos channel w bit = 32 * ipuReg channel w bit + bit % 32 := by
  unfold ipuPos ipuReg
  omega

theorem ipuPos_add (j : Nat) : ipuPos channel w bit + j = ipuPos channel w (bit + j) :=
  Nat.add_assoc _ _ _

/-- A bit of the field in the word where the field starts, or in the next one. -/
theorem bankBit_field {j : Nat} (hj : bit % 32 + j < 64) : bankBit m (ipuPos channel w bit + j) =
    if bit % 32 + j < 32 then (m (ipuReg channel w bit)).getLsbD (bit % 32 + j)
    else (m (ipuReg channel w bit + 1)).getLsbD (bit % 32 + j - 32) := by
  have hpos : ipuPos channel w bit = 32 * ipuReg channel w bit + bit % 32 := ipuPos_eq
  split
  · rename_i hlt
    rw [hpos, Nat.add_assoc, bankBit_word _ _ hlt]
  · rename_i hge
    rw [hpos, show 32 * ipuReg channel w bit + bit % 32 + j =
      32 * (ipuReg channel w bit + 1) + (bit % 32 + j - 32) by omega, bankBit_word _ _ (by omega)]

/-! ## Reading -/

theorem getLsbD_readField (h1 : 1 ≤ size) (h31 : size ≤ 31) (j : Nat) :
    (ipuChParamReadField m channel w bit size).getLsbD j =
      (decide (j < size) && bankBit m (ipuPos channel w bit + j)) := by
  have hmask := fun i => getLsbD_lowMask (show size < 32 by omega) i
  have hoff : bit % 32 < 32 := Nat.mod_lt _ (by decide)
  unfold ipuChParamReadField
  dsimp only
  by_cases hj : j < size
  swap
  · -- nothing is read behind the field
    rw [decide_eq_false hj, Bool.false_and]
    split
    · rename_i hcross
      have hoff0 : bit % 32 ≠ 0 := by omega
      rw [if_pos hoff0, BitVec.getLsbD_or, BitVec.getLsbD_and, hmask, decide_eq_false hj,
        Bool.false_and, Bool.false_or, BitVec.getLsbD_shiftLeft, BitVec.getLsbD_and,
        BitVec.getLsbD_ushiftRight, hmask]
      by_cases hlow : j < 32 - bit % 32
      · rw [decide_eq_true hlow]
        simp
      · rw [decide_eq_false (show ¬ 32 - bit % 32 + (j - (32 - bit % 32)) < size by omega)]
        simp
    · rw [BitVec.getLsbD_and, hmask, decide_eq_false hj, Bool.false_and]
  rw [bankBit_field (by omega), decide_eq_true hj, Bool.true_and]
  split
  · rename_i hcross
    have hoff0 : bit % 32 ≠ 0 := by omega
    rw [if_pos hoff0, BitVec.getLsbD_or, BitVec.getLsbD_and, hmask, decide_eq_true hj,
      Bool.true_and, BitVec.getLsbD_ushiftRight, BitVec.getLsbD_shiftLeft, BitVec.getLsbD_and,
      BitVec.getLsbD_ushiftRight, hmask]
    split
    · rename_i hlow
      rw [decide_eq_true (show j < 32 - bit % 32 by omega)]
      simp
    · rename_i hhigh
      rw [BitVec.getLsbD_of_ge _ _ (Nat.not_lt.mp hhigh),
        decide_eq_true (show j < 32 by omega), decide_eq_false (show ¬ j < 32 - bit % 32 by omega),
        decide_eq_true (show 32 - bit % 32 + (j - (32 - bit % 32)) < size by omega),
        show j - (32 - bit % 32) = bit % 32 + j - 32 by omega]
      simp
  · rename_i hcross
    rw [if_pos (by omega), BitVec.getLsbD_and, hmask, decide_eq_true hj, Bool.true_and,
      BitVec.getLsbD_ushiftRight]

theorem getLsbD_ipuWord (j : Nat) (hj : j < 160) :
    (ipuWord m channel w).getLsbD j = bankBit m (ipuPos channel w j) := by
  have hpos : ipuPos channel w j = 32 * (channel * 16 + w * 8) + j := rfl
  unfold ipuWord
  dsimp only
  generalize channel * 16 + w * 8 = reg at hpos
  have hbit : ∀ i k, j = 32 * i + k → k < 32 → bankBit m (ipuPos channel w j) = (m (reg + i)).getLsbD k := by
    intro i k hj hk
    rw [hpos, hj, ← Nat.add_assoc, ← Nat.mul_add, bankBit_word _ _ hk]
  simp only [BitVec.getLsbD_append]
  split
  · exact (hbit 0 j (by omega) (by omega)).symm
  split
  · exact (hbit 1 (j - 32) (by omega) (by omega)).symm
  split
  · exact (hbit 2 (j - 32 - 32) (by omega) (by omega)).symm
  split
  · exact (hbit 3 (j - 32 - 32 - 32) (by omega) (by omega)).symm
  · exact (hbit 4 (j - 32 - 32 - 32 - 32) (by omega) (by omega)).symm

/-- Reading a field gives its bits of the word. -/
theorem readField_eq_extract (h1 : 1 ≤ size) (h31 : size ≤ 31) (hin : bit + size ≤ 160) :
    ipuChParamReadField m channel w bit size =
      ((ipuWord m channel w).extractLsb' bit size).setWidth 32 := by
  apply BitVec.eq_of_getLsbD_eq
  intro j hj
  rw [getLsbD_readField h1 h31, BitVec.getLsbD_setWidth, BitVec.getLsbD_extractLsb']
  by_cases hlt : j < size
  · rw [getLsbD_ipuWord _ (by omega), decide_eq_true hj, Bool.true_and, ipuPos_add]
  · simp [hlt]

theorem readField_lt (h1 : 1 ≤ size) (h31 : size ≤ 31) :
    (ipuChParamReadField m channel w bit size).toNat < 2 ^ size := by
  apply Nat.lt_pow_two_of_testBit
  intro j hj
  change (ipuChParamReadField m channel w bit size).getLsbD j = false
  rw [getLsbD_readField h1 h31, decide_eq_false (Nat.not_lt.mpr hj), Bool.false_and]

/-! ## Writing -/

/-- The word in which the field starts, after a write. -/
theorem getLsbD_writeFirst {x : Word} {off : Nat} (h31 : size ≤ 31) (hv : value.toNat < 2 ^ size) {k : Nat}
    (hk : k < 32) :
    ((x &&& ~~~(((1#32 <<< size) - 1) <<< off)) ||| (value <<< off)).getLsbD k =
      if off ≤ k ∧ k < off + size then value.getLsbD (k - off) else x.getLsbD k := by
  rw [BitVec.getLsbD_or, BitVec.getLsbD_and, BitVec.getLsbD_not, BitVec.getLsbD_shiftLeft,
    BitVec.getLsbD_shiftLeft, getLsbD_lowMask (by omega)]
  by_cases hin : off ≤ k ∧ k < off + size
  · rw [if_pos hin, decide_eq_true (show k - off < size by omega)]
    simp [hk, Nat.not_lt.mpr hin.1]
  · rw [if_neg hin]
    by_cases hlow : k < off
    · simp [hk, hlow]
    · have htop : value.getLsbD (k - off) = false := Nat.testBit_lt_two_pow
        (Nat.lt_of_lt_of_le hv (Nat.pow_le_pow_right (by decide) (by omega)))
      rw [htop, decide_eq_false (show ¬ k - off < size by omega)]
      simp [hk]

/-- The word into which the field runs on, after a write. -/
theorem getLsbD_writeNext {x : Word} {shift : Nat} (h31 : size ≤ 31) (hv : value.toNat < 2 ^ size)
    {k : Nat} (hk : k < 32) :
    ((x &&& ~~~(((1#32 <<< size) - 1) >>> shift)) ||| (value >>> shift)).getLsbD k =
      if shift + k < size then value.getLsbD (shift + k) else x.getLsbD k := by
  rw [BitVec.getLsbD_or, BitVec.getLsbD_and, BitVec.getLsbD_not, BitVec.getLsbD_ushiftRight,
    BitVec.getLsbD_ushiftRight, getLsbD_lowMask (by omega)]
  by_cases hin : shift + k < size
  · rw [if_pos hin, decide_eq_true hin]
    simp
  · have htop : value.getLsbD (shift + k) = false := Nat.testBit_lt_two_pow
      (Nat.lt_of_lt_of_le hv (Nat.pow_le_pow_right (by decide) (by omega)))
    rw [if_neg hin, decide_eq_false hin, htop]
    simp [hk]

/-- A write replaces the bits of the field and no other bit. -/
theorem bankBit_writeField (h1 : 1 ≤ size) (h31 : size ≤ 31) (hv : value.toNat < 2 ^ size) (n : Nat) :
    bankBit (ipuChParamWriteField m channel w bit size value) n =
      if ipuPos channel w bit ≤ n ∧ n < ipuPos channel w bit + size
      then value.getLsbD (n - ipuPos channel w bit) else bankBit m n := by
  have hpos : ipuPos channel w bit = 32 * ipuReg channel w bit + bit % 32 := ipuPos_eq
  have hoff : bit % 32 < 32 := Nat.mod_lt _ (by decide)
  obtain ⟨i, k, hk, rfl⟩ : ∃ i k, k < 32 ∧ n = 32 * i + k :=
    ⟨n / 32, n % 32, Nat.mod_lt _ (by decide), (Nat.div_add_mod n 32).symm⟩
  rw [bankBit_word _ _ hk, bankBit_word _ _ hk, hpos]
  unfold ipuChParamWriteField
  dsimp only
  generalize ipuReg channel w bit = reg
  by_cases hcross : bit / 32 < (bit + size - 1) / 32
  · have hoff0 : bit % 32 ≠ 0 := by omega
    rw [if_pos hcross, if_pos hoff0]
    by_cases hnext : i = reg + 1
    · subst hnext
      rw [Function.update_self, Function.update_of_ne (Nat.succ_ne_self reg),
        getLsbD_writeNext h31 hv hk]
      by_cases hin : 32 - bit % 32 + k < size
      · rw [if_pos hin, if_pos (by omega)]
        congr 1
        omega
      · rw [if_neg hin, if_neg (by omega)]
    · rw [Function.update_of_ne hnext]
      by_cases hreg : i = reg
      · subst hreg
        rw [Function.update_self, getLsbD_writeFirst h31 hv hk]
        by_cases hin : bit % 32 ≤ k ∧ k < bit % 32 + size
        · rw [if_pos hin, if_pos (by omega)]
          congr 1
          omega
        · rw [if_neg hin, if_neg (by omega)]
      · rw [Function.update_of_ne hreg, if_neg (by omega)]
  · rw [if_neg hcross]
    by_cases hreg : i = reg
    · subst hreg
      rw [Function.update_self, getLsbD_writeFirst h31 hv hk]
      by_cases hin : bit % 32 ≤ k ∧ k < bit % 32 + size
      · rw [if_pos hin, if_pos (by omega)]
        congr 1
        omega
      · rw [if_neg hin, if_neg (by omega)]
    · rw [Function.update_of_ne hreg, if_neg (by omega)]

/-- What was written is read back. -/
theorem readField_writeField (h1 : 1 ≤ size) (h31 : size ≤ 31) (hv : value.toNat < 2 ^ size) :
    ipuChParamReadField (ipuChParamWriteField m channel w bit size value) channel w bit size =
      value := by
  apply BitVec.eq_of_getLsbD_eq
  intro j _
  rw [getLsbD_readField h1 h31, bankBit_writeField h1 h31 hv]
  by_cases hj : j < size
  · rw [if_pos (by omega), Nat.add_sub_cancel_left, decide_eq_true hj, Bool.true_and]
  · have htop : value.getLsbD j = false := Nat.testBit_lt_two_pow
      (Nat.lt_of_lt_of_le hv (Nat.pow_le_pow_right (by decide) (by omega)))
    rw [decide_eq_false hj, Bool.false_and, htop]

/-- The accessors of a field: what is written is read back, no bit outside of the field changes,
and a read gives the bits of the field in the word as one little-endian number. -/
theorem ipuChParam_field (h1 : 1 ≤ size) (h31 : size ≤ 31) (hin : bit + size ≤ 160)
    (hv : value.toNat < 2 ^ size) :
    ipuChParamReadField (ipuChParamWriteField m channel w bit size value) channel w bit size =
        value ∧
      (∀ n, ¬ InField channel w bit size n →
        bankBit (ipuChParamWriteField m channel w bit size value) n = bankBit m n) ∧
      ipuChParamReadField m channel w bit size =
        ((ipuWord m channel w).extractLsb' bit size).setWidth 32 := by
  refine ⟨readField_writeField h1 h31 hv, fun n hn => ?_, readField_eq_extract h1 h31 hin⟩
  rw [bankBit_writeField h1 h31 hv]
  exact if_neg hn

end Field

/-- The second buffer address, which runs over two words. -/
theorem ipuChParam_field_crossing :
    let m : Nat → Word := fun i => 0xA5A5A5A5 + BitVec.ofNat 32 i
    ipuChParamReadField (ipuChParamWriteField m 23 1 29 29 0x09700000) 23 1 29 29 = 0x09700000 ∧
      (∀ n, ¬ InField 23 1 29 29 n →
        bankBit (ipuChParamWriteField m 23 1 29 29 0x09700000) n = bankBit m n) ∧
      ipuChParamReadField m 23 1 29 29 = ((ipuWord m 23 1).extractLsb' 29 29).setWidth 32 :=
  ipuChParam_field (by decide) (by decide) (by decide) (by decide)

/-! ## Several fields -/

/-- A field with the value that is written to it, as in `fbFields`. -/
abbrev FieldWrite : Type := Nat × Nat × Nat × Nat × Word

namespace FieldWrite

def size (f : FieldWrite) : Nat := f.2.2.2.1
def value (f : FieldWrite) : Word := f.2.2.2.2

/-- `ipu_ch_param_read_field` of the field. -/
def read (f : FieldWrite) (m : Nat → Word) : Word := ipuChParamReadField m f.1 f.2.1 f.2.2.1 f.size

/-- `ipu_ch_param_write_field` of the field. -/
def write (f : FieldWrite) (m : Nat → Word) : Nat → Word :=
  ipuChParamWriteField m f.1 f.2.1 f.2.2.1 f.size f.value

/-- The value fits into the field. -/
def Fits (f : FieldWrite) : Prop := 1 ≤ f.size ∧ f.size ≤ 31 ∧ f.value.toNat < 2 ^ f.size

/-- Bit `n` of CPMEM belongs to the field. -/
def Has (f : FieldWrite) (n : Nat) : Prop := InField f.1 f.2.1 f.2.2.1 f.size n

/-- The position and the size of the field. -/
def place (f : FieldWrite) : Nat × Nat := (ipuPos f.1 f.2.1 f.2.2.1, f.size)

/-- The fields have no bit in common. -/
def Apart (f g : FieldWrite) : Prop :=
  f.place.1 + f.place.2 ≤ g.place.1 ∨ g.place.1 + g.place.2 ≤ f.place.1

end FieldWrite

/-- CPMEM after the writes. -/
def writeFields (m : Nat → Word) (fields : List FieldWrite) : Nat → Word :=
  fields.foldl (fun m f => f.write m) m

theorem writeFields_kept {fields : List FieldWrite} (hfits : ∀ f ∈ fields, f.Fits) {n : Nat}
    (hn : ∀ f ∈ fields, ¬ f.Has n) (m : Nat → Word) :
    bankBit (writeFields m fields) n = bankBit m n := by
  induction fields generalizing m with
  | nil => rfl
  | cons f fields ih =>
    obtain ⟨hf, hfits⟩ := List.forall_mem_cons.mp hfits
    obtain ⟨hnf, hn⟩ := List.forall_mem_cons.mp hn
    change bankBit (writeFields (f.write m) fields) n = _
    rw [ih hfits hn, FieldWrite.write, bankBit_writeField hf.1 hf.2.1 hf.2.2]
    exact if_neg hnf

/-- A read depends on the bits of the field only. -/
theorem FieldWrite.Fits.read_congr {f : FieldWrite} (hf : f.Fits) {m m' : Nat → Word}
    (h : ∀ n, f.Has n → bankBit m n = bankBit m' n) : f.read m = f.read m' := by
  apply BitVec.eq_of_getLsbD_eq
  intro j _
  unfold FieldWrite.read
  rw [getLsbD_readField hf.1 hf.2.1, getLsbD_readField hf.1 hf.2.1]
  by_cases hj : j < f.size
  · have hbit : bankBit m (ipuPos f.1 f.2.1 f.2.2.1 + j) = bankBit m' (ipuPos f.1 f.2.1 f.2.2.1 + j) :=
      h _ ⟨Nat.le_add_right _ _, Nat.add_lt_add_left hj _⟩
    rw [hbit]
  · rw [decide_eq_false hj, Bool.false_and, Bool.false_and]

/-- Fields that are apart read back what was written. -/
theorem read_writeFields {fields : List FieldWrite} (hfits : ∀ f ∈ fields, f.Fits)
    (hapart : fields.Pairwise FieldWrite.Apart) (m : Nat → Word) :
    ∀ f ∈ fields, f.read (writeFields m fields) = f.value := by
  induction fields generalizing m with
  | nil => simp
  | cons f fields ih =>
    obtain ⟨hf, hfits⟩ := List.forall_mem_cons.mp hfits
    obtain ⟨hhead, hapart⟩ := List.pairwise_cons.mp hapart
    rw [List.forall_mem_cons]
    refine ⟨?_, ih hfits hapart (f.write m)⟩
    -- the later writes do not touch the first field
    have hlater : ∀ n, f.Has n → bankBit (writeFields (f.write m) fields) n = bankBit (f.write m) n := by
      intro n hn
      refine writeFields_kept hfits (fun g hg hgn => ?_) _
      obtain ⟨hlo, hhi⟩ := hn
      obtain ⟨hglo, hghi⟩ := hgn
      rcases hhead g hg with h | h <;> simp only [FieldWrite.place] at h <;> omega
    exact (hf.read_congr hlater).trans (readField_writeField hf.1 hf.2.1 hf.2.2)

/-! ## The fields of `fb_acquire` -/

theorem fbFields_apart (stride : Word) : List.Pairwise FieldWrite.Apart (fbFields stride) := by
  -- what is written does not matter
  have hplace : (fbFields stride).map FieldWrite.place = (fbFields 0).map FieldWrite.place := rfl
  have hplaces : ((fbFields 0).map FieldWrite.place).Pairwise fun p q =>
      p.1 + p.2 ≤ q.1 ∨ q.1 + q.2 ≤ p.1 := by decide
  rw [← hplace, List.pairwise_map] at hplaces
  exact hplaces

/-- All values fit but for the stride line of a wide screen. -/
theorem fbFields_fits {stride : Word} (h : (stride - 1).toNat < 2 ^ 14) :
    ∀ f ∈ fbFields stride, FieldWrite.Fits f := by
  intro f hf
  simp only [fbFields, List.mem_cons, List.not_mem_nil, or_false] at hf
  rcases hf with rfl | rfl | rfl | rfl | rfl | rfl | rfl | rfl | rfl | rfl | rfl | rfl | rfl |
    rfl | rfl
  case inr.inr.inr.inr.inr.inr.inr.inr.inr.inr.inr.inl =>
    exact ⟨show 1 ≤ 14 by decide, show 14 ≤ 31 by decide, h⟩
  all_goals exact ⟨by decide, by decide, by decide⟩

/-- The loop of `fb_acquire` over its fields. -/
theorem writeFields_runs {fields : List FieldWrite} {s s' : Sys} {w : List Event} {u : Unit}
    (h : Code.Runs (Code.forEach (fun f : FieldWrite => modifyCpmem f.write) fields) s w u s') :
    s'.fb.cpmem = writeFields s.fb.cpmem fields := by
  induction fields generalizing s w with
  | nil =>
    obtain ⟨-, rfl⟩ := Code.runs_forEach_nil.mp h
    rfl
  | cons f fields ih =>
    obtain ⟨w₁, s₁, w₂, h₁, h₂, rfl⟩ := Code.runs_forEach_cons.mp h
    obtain ⟨-, -, rfl⟩ := modifyCpmem_runs h₁
    exact ih h₂

/-- CPMEM after `fb_acquire`. -/
theorem fbAcquire_cpmem {env : Env} {r g b : Byte} {s s' : Sys} {w : List Event}
    {res : Option FbInfo} (h : Code.Runs (fbAcquire env r g b) s w res s') :
    s'.fb.cpmem = writeFields s.fb.cpmem (fbFields (fbInfoOf env s.fb.cpmem).stride) := by
  rw [fbAcquire, Code.runs_get_bind] at h
  obtain ⟨w₁, ret, s₁, v₁, h₁, k₁, rfl⟩ := Code.runs_bind.mp h
  obtain ⟨w₂, _, s₂, v₂, h₂, k₂, rfl⟩ := Code.runs_bind.mp k₁
  obtain ⟨w₃, m, s₃, v₃, h₃, k₃, rfl⟩ := Code.runs_bind.mp k₂
  obtain ⟨w₄, _, s₄, v₄, h₄, k₄, rfl⟩ := Code.runs_bind.mp k₃
  obtain ⟨w₅, _, s₅, v₅, h₅, k₅, rfl⟩ := Code.runs_bind.mp k₄
  obtain ⟨-, -, rfl⟩ := Code.runs_pure.mp k₅
  have hfb₂ : s₂.fb = s.fb := by rw [(csuSetCsl_runs h₂).2.2.1, (emuAddRegion_runs h₁).2]
  rw [readCpmem, Code.runs_get_bind, Code.runs_require_bind, Code.runs_pure, hfb₂] at h₃
  obtain ⟨-, -, rfl, rfl⟩ := h₃
  have hpaint : s₄.fb.cpmem = s.fb.cpmem := by
    rw [(fbClear_paintOnly _ _ _ _ h₄).rest, hfb₂]
  rw [writeFields_runs h₅, hpaint]
  rfl

/-- The channel, the word, the bit and the size of the fields that `fb_acquire` programs. -/
def fbPlaces : List (Nat × Nat × Nat × Nat) :=
  [(23, 0, 107, 3), (23, 1, 85, 4), (23, 1, 78, 7), (23, 1, 116, 3), (23, 1, 128, 5), (23, 1, 119, 3),
   (23, 1, 133, 5), (23, 1, 122, 3), (23, 1, 138, 5), (23, 1, 125, 3), (23, 1, 143, 5),
   (23, 1, 102, 14), (23, 1, 0, 29), (23, 1, 29, 29), (69, 1, 0, 29)]

/-- The display is programmed for RGB24, lines of `width` pixels and the memory at
`CFG_FBMEM_START`, and the other bits of the two channels are as before. -/
structure FbProgrammed (m m' : Nat → Word) (width : Nat) : Prop where
  bitsPerPixel : ipuChParamReadField m' 23 0 107 3 = 1
  pixelFormat : ipuChParamReadField m' 23 1 85 4 = 7
  burstSize : ipuChParamReadField m' 23 1 78 7 = 19
  redWidth : ipuChParamReadField m' 23 1 116 3 = 7
  redOffset : ipuChParamReadField m' 23 1 128 5 = 16
  greenWidth : ipuChParamReadField m' 23 1 119 3 = 7
  greenOffset : ipuChParamReadField m' 23 1 133 5 = 8
  blueWidth : ipuChParamReadField m' 23 1 122 3 = 7
  blueOffset : ipuChParamReadField m' 23 1 138 5 = 0
  alphaWidth : ipuChParamReadField m' 23 1 125 3 = 7
  alphaOffset : ipuChParamReadField m' 23 1 143 5 = 24
  strideLine : (ipuChParamReadField m' 23 1 102 14).toNat = 3 * width - 1
  buffer0 : ipuChParamReadField m' 23 1 0 29 = 0x4B800000 / 8
  buffer1 : ipuChParamReadField m' 23 1 29 29 = 0x4B800000 / 8
  buffer0' : ipuChParamReadField m' 69 1 0 29 = 0x4B800000 / 8
  kept : ∀ n, FbWord (n / 32) → (∀ p ∈ fbPlaces, ¬ InField p.1 p.2.1 p.2.2.1 p.2.2.2 n) →
    bankBit m' n = bankBit m n

theorem FbInfo.Sized.stride_line {info : FbInfo} (h : info.Sized) :
    (info.stride - 1).toNat = 3 * info.width.toNat - 1 := by
  have hpos := h.width_pos
  have hstride := h.stride_eq
  have hone : (1 : Word) ≤ info.stride := by
    rw [BitVec.le_def, hstride]
    exact Nat.le_trans hpos (Nat.le_mul_of_pos_left _ (by decide))
  rw [BitVec.toNat_sub_of_le hone, hstride]
  rfl

theorem fbFields_places (stride : Word) {n : Nat}
    (hn : ∀ p ∈ fbPlaces, ¬ InField p.1 p.2.1 p.2.2.1 p.2.2.2 n) :
    ∀ f ∈ fbFields stride, ¬ FieldWrite.Has f n := by
  have hplaces : (fbFields stride).map (fun f => (f.1, f.2.1, f.2.2.1, f.2.2.2.1)) = fbPlaces := rfl
  intro f hf
  have hmem : (f.1, f.2.1, f.2.2.1, f.2.2.2.1) ∈ fbPlaces := by
    rw [← hplaces]
    exact List.mem_map.mpr ⟨f, hf, rfl⟩
  exact hn (f.1, f.2.1, f.2.2.1, f.2.2.2.1) hmem

/-- The stride line has fourteen bits, which a screen of more than 5461 pixels a line exceeds. -/
theorem fbProgrammed_iff (env : Env) (m : Nat → Word) :
    FbProgrammed m (writeFields m (fbFields (fbInfoOf env m).stride)) (fbInfoOf env m).width.toNat ↔
      (fbInfoOf env m).width.toNat ≤ 5461 := by
  have hsized := fbInfoOf_sized env m
  have hline := hsized.stride_line
  have hpos := hsized.width_pos
  generalize fbInfoOf env m = info at hline hpos
  constructor
  · intro h
    have hlt := @readField_lt (writeFields m (fbFields info.stride)) 23 1 102 14 (by decide)
      (by decide)
    have hread := h.strideLine
    omega
  · intro hwidth
    have hfits := fbFields_fits (show (info.stride - 1).toNat < 2 ^ 14 by omega)
    have hread := read_writeFields hfits (fbFields_apart _) m
    have hkept := fun n hn => writeFields_kept hfits (fbFields_places info.stride hn) (n := n) m
    generalize writeFields m (fbFields info.stride) = m' at hread hkept
    simp only [fbFields, List.forall_mem_cons] at hread
    obtain ⟨hbpp, hformat, hburst, hred, hred', hgreen, hgreen', hblue, hblue', halpha, halpha', hstride,
      hbuf₀, hbuf₁, hbuf₂, -⟩ := hread
    exact
      { bitsPerPixel := hbpp, pixelFormat := hformat, burstSize := hburst
        redWidth := hred, redOffset := hred', greenWidth := hgreen, greenOffset := hgreen'
        blueWidth := hblue, blueOffset := hblue', alphaWidth := halpha, alphaOffset := halpha'
        strideLine := (congrArg BitVec.toNat hstride).trans hline
        buffer0 := hbuf₀, buffer1 := hbuf₁, buffer0' := hbuf₂
        kept := fun n _ hn => hkept n hn }

/-- `fb_acquire` programs the display as intended just when the screen that CPMEM describes is mapped,
it fits into the memory of the framebuffer, and its stride line fits into the field. -/
theorem fbAcquire_programs_iff {env : Env} {r g b : Byte} {s : Sys} :
    (∃ w s', Code.Runs (fbAcquire env r g b) s w (some (fbInfoOf env s.fb.cpmem)) s' ∧
        FbProgrammed s.fb.cpmem s'.fb.cpmem (fbInfoOf env s.fb.cpmem).width.toNat) ↔
      s.DisplayReady env ∧ (fbInfoOf env s.fb.cpmem).width.toNat ≤ 5461 := by
  constructor
  · rintro ⟨w, s', hrun, hprog⟩
    rw [fbAcquire_cpmem hrun] at hprog
    exact ⟨fbAcquire_runs_iff.mp ⟨w, s', hrun⟩, (fbProgrammed_iff env s.fb.cpmem).mp hprog⟩
  · rintro ⟨hready, hwidth⟩
    obtain ⟨w, s', hrun⟩ := (@fbAcquire_runs_iff env r g b s).mpr hready
    refine ⟨w, s', hrun, ?_⟩
    rw [fbAcquire_cpmem hrun]
    exact (fbProgrammed_iff env s.fb.cpmem).mpr hwidth

namespace Board

/-- CPMEM with a screen of one line. -/
def lineCpmem (width : Word) : Nat → Word :=
  ipuChParamWriteField (fun _ => 0) ipuChan0 0 125 13 (width - 1)

/-- The board with a screen of one line. -/
def line (width : Word) : Sys := (booted imx6 0).withCpmem (lineCpmem width)

end Board

/-- With one pixel more than fit, the stride line reads back as 1. -/
theorem stride_line_overflows :
    ∃ w s', Code.Runs (fbAcquire imx6 0 0 0) (Board.line 5462) w
        (some (fbInfoOf imx6 (Board.lineCpmem 5462))) s' ∧
      (fbInfoOf imx6 (Board.lineCpmem 5462)).width = 5462 ∧
      ipuChParamReadField s'.fb.cpmem 23 1 102 14 = 1 ∧
      ¬ FbProgrammed (Board.line 5462).fb.cpmem s'.fb.cpmem 5462 := by
  have hready : (Board.line 5462).DisplayReady imx6 :=
    ⟨by decide +kernel, by decide +kernel, by decide +kernel⟩
  have hbefore : (Board.line 5462).fb.cpmem = Board.lineCpmem 5462 := rfl
  obtain ⟨w, s', hrun⟩ := (@fbAcquire_runs_iff imx6 0 0 0 (Board.line 5462)).mpr hready
  have hread : ipuChParamReadField s'.fb.cpmem 23 1 102 14 = 1 := by
    rw [fbAcquire_cpmem hrun, hbefore]
    decide +kernel
  rw [hbefore] at hrun
  refine ⟨w, s', hrun, by decide +kernel, hread, fun h => ?_⟩
  have hline := h.strideLine
  rw [hread] at hline
  exact absurd hline (by decide)

end SeCloak
