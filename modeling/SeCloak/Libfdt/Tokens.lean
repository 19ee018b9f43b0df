import SeCloak.Libfdt.Progress

/-!
# Tokens

The structure block is a list of tokens: a tag and what belongs to it, filled up to a multiple of four
bytes. `fdt_next_tag` finds the tag of a token and the offset of the next one (`nextTag_token`).
-/

namespace SeCloak
open Misc

/-- The bytes of a big-endian word. -/
def be32 (w : Word) : List Byte :=
  [w.extractLsb' 24 8, w.extractLsb' 16 8, w.extractLsb' 8 8, w.extractLsb' 0 8]

/-- `FDT_TAGALIGN` of a number of bytes. -/
def tagalign (n : Nat) : Nat := (n + 3) / 4 * 4

/-- What the structure block has at one tag. -/
inductive Token where
  | beginNode (name : CString)
  | endNode
  | prop (nameoff : Word) (value : List Byte)
  | nop
  | endTree

namespace Token

def tag : Token → Word
  | beginNode _ => fdtBeginNode
  | endNode => fdtEndNode
  | prop _ _ => fdtProp
  | nop => fdtNop
  | endTree => fdtEnd

/-- What stands behind the tag. -/
def body : Token → List Byte
  | beginNode name => name ++ [0]
  | prop nameoff value => be32 (BitVec.ofNat 32 value.length) ++ (be32 nameoff ++ value)
  | _ => []

/-- The bytes of a token, without those that fill it up. -/
def bytes (t : Token) : List Byte := be32 t.tag ++ t.body

/-- The number of bytes that a token takes. -/
def size (t : Token) : Nat := 4 + tagalign t.body.length

/-- A name has no NUL. -/
def Named : Token → Prop
  | beginNode name => 0 ∉ name
  | _ => True

instance : DecidablePred Named
  | beginNode name => inferInstanceAs (Decidable (0 ∉ name))
  | endNode | prop _ _ | nop | endTree => isTrue trivial

@[simp] theorem length_bytes (t : Token) : t.bytes.length = 4 + t.body.length := by
  simp [bytes, be32]
  omega

theorem le_size (t : Token) : t.bytes.length ≤ t.size := by
  rw [length_bytes, size, tagalign]
  omega

end Token

namespace Blob

/-- The structure block can be addressed. -/
structure Placed (b : Blob) : Prop extends b.Sized where
  room : b.fdt.toNat + b.offDtStruct.toNat + b.sizeDtStruct.toNat < 2 ^ 32

/-- The byte at the offset `o`. -/
def byteAt (b : Blob) (o : Nat) : Byte := b.mem (b.ptr (BitVec.ofNat 32 o))

/-- The structure block has the bytes `bs` at the offset `o`. -/
def Holds (b : Blob) (o : Nat) (bs : List Byte) : Prop :=
  o + bs.length ≤ b.sizeDtStruct.toNat ∧ ∀ i x, bs[i]? = some x → b.byteAt (o + i) = x

section Token

variable {b : Blob} {o n fuel : Nat} {xs ys : List Byte} {name : CString} {w : Word} {t : Token}

theorem holds_append : b.Holds o (xs ++ ys) ↔ b.Holds o xs ∧ b.Holds (o + xs.length) ys := by
  constructor
  · rintro ⟨hle, hmem⟩
    rw [List.length_append] at hle
    refine ⟨⟨by omega, fun i x hx => hmem i x ?_⟩, by omega, fun i x hx => ?_⟩
    · rw [List.getElem?_append_left]
      · exact hx
      · exact (List.getElem?_eq_some_iff.mp hx).1
    · rw [Nat.add_assoc]
      refine hmem _ x ?_
      rwa [List.getElem?_append_right (Nat.le_add_right _ _), Nat.add_sub_cancel_left]
  · rintro ⟨⟨hle, hxs⟩, hle', hys⟩
    refine ⟨by rw [List.length_append]; omega, fun i x hx => ?_⟩
    rcases Nat.lt_or_ge i xs.length with hi | hi
    · rw [List.getElem?_append_left hi] at hx
      exact hxs i x hx
    · rw [List.getElem?_append_right hi] at hx
      have hval := hys _ x hx
      rwa [Nat.add_assoc, Nat.add_sub_cancel' hi] at hval

theorem ptr_add (k : Word) : b.ptr (BitVec.ofNat 32 o) + k = b.ptr (BitVec.ofNat 32 (o + k.toNat)) := by
  rw [Blob.ptr, Blob.ptr, BitVec.ofNat_add, BitVec.ofNat_toNat, BitVec.setWidth_eq, BitVec.add_assoc]

theorem mem_ptr_add (k : Word) : b.mem (b.ptr (BitVec.ofNat 32 o) + k) = b.byteAt (o + k.toNat) := by
  rw [ptr_add, byteAt]

/-- The word at the offset `o`. -/
theorem Holds.fdt32 (h : b.Holds o (be32 w)) : b.fdt32 (b.ptr (BitVec.ofNat 32 o)) = w := by
  have h0 : b.mem (b.ptr (BitVec.ofNat 32 o)) = w.extractLsb' 24 8 := h.2 0 _ rfl
  have h1 : b.byteAt (o + (1 : Word).toNat) = w.extractLsb' 16 8 := h.2 1 _ rfl
  have h2 : b.byteAt (o + (2 : Word).toNat) = w.extractLsb' 8 8 := h.2 2 _ rfl
  have h3 : b.byteAt (o + (3 : Word).toNat) = w.extractLsb' 0 8 := h.2 3 _ rfl
  rw [Blob.fdt32, mem_ptr_add, mem_ptr_add, mem_ptr_add, h0, h1, h2, h3]
  apply BitVec.eq_of_getLsbD_eq
  intro i hi
  simp only [BitVec.getLsbD_append, BitVec.getLsbD_extractLsb']
  grind

/-- A range inside of the structure block has an address. -/
theorem Placed.offsetPtr {len : Word} (h : b.Placed) (hle : o + len.toNat ≤ b.sizeDtStruct.toNat) :
    b.offsetPtr (BitVec.ofNat 32 o) len = some (b.ptr (BitVec.ofNat 32 o)) := by
  have hsize := h.size
  have hroom := h.room
  have ho : (BitVec.ofNat 32 o).toNat = o := Nat.mod_eq_of_lt (by omega)
  have hadd : (BitVec.ofNat 32 o + len).toNat = o + len.toNat := by
    rw [BitVec.toNat_add, ho]
    omega
  have hptr : (b.ptr (BitVec.ofNat 32 o)).toNat = b.fdt.toNat + b.offDtStruct.toNat + o := by
    rw [Blob.ptr, BitVec.toNat_add, BitVec.toNat_add, ho]
    omega
  have hend : (b.ptr (BitVec.ofNat 32 o) + len).toNat =
      b.fdt.toNat + b.offDtStruct.toNat + o + len.toNat := by
    rw [BitVec.toNat_add, hptr]
    omega
  unfold Blob.offsetPtr
  rw [if_neg, if_neg]
  · rw [BitVec.lt_def]
    omega
  · rintro ⟨-, hlt⟩
    rw [BitVec.lt_def, BitVec.lt_def] at hlt
    omega

theorem Placed.offsetPtr_one (h : b.Placed) (hle : o + 1 ≤ b.sizeDtStruct.toNat) :
    b.offsetPtr (BitVec.ofNat 32 o) 1 = some (b.ptr (BitVec.ofNat 32 o)) := h.offsetPtr hle

theorem Placed.offsetPtr_four (h : b.Placed) (hle : o + 4 ≤ b.sizeDtStruct.toNat) :
    b.offsetPtr (BitVec.ofNat 32 o) 4 = some (b.ptr (BitVec.ofNat 32 o)) := h.offsetPtr hle

theorem Placed.skipName (h : b.Placed) (hname : 0 ∉ name) (hold : b.Holds o (name ++ [0]))
    (hfuel : name.length < fuel) :
    b.skipName fuel (BitVec.ofNat 32 o) = some (BitVec.ofNat 32 (o + name.length + 1)) := by
  have hbound := hold.1
  rw [List.length_append, List.length_singleton] at hbound
  induction name generalizing o fuel with
  | nil =>
    obtain ⟨fuel, rfl⟩ := Nat.exists_eq_succ_of_ne_zero (Nat.ne_of_gt hfuel)
    have hmem : b.byteAt o = 0 := hold.2 0 0 rfl
    have hptr := h.offsetPtr_one (o := o) (by omega)
    have hnext : BitVec.ofNat 32 o + 1 = BitVec.ofNat 32 (o + 1) := (BitVec.ofNat_add o 1).symm
    rw [Blob.skipName, hptr]
    dsimp only
    rw [← byteAt, if_pos hmem, hnext]
    rfl
  | cons c name ih =>
    obtain ⟨fuel, rfl⟩ := Nat.exists_eq_succ_of_ne_zero (Nat.ne_of_gt (Nat.zero_lt_of_lt hfuel))
    have hne : c ≠ 0 := by
      rintro rfl
      exact hname List.mem_cons_self
    have hmem : b.byteAt o = c := hold.2 0 c rfl
    have hptr := h.offsetPtr_one (o := o) (by simp only [List.length_cons] at hbound; omega)
    have hrest : b.Holds (o + 1) (name ++ [0]) := by
      have hsplit : b.Holds o ([c] ++ (name ++ [0])) := hold
      exact (holds_append.mp hsplit).2
    have hstep := ih (fun hmem => hname (List.mem_cons_of_mem c hmem)) hrest
      (by simpa using hfuel) (by simp only [List.length_cons] at hbound; omega)
    rw [Blob.skipName, hptr]
    refine (if_neg ?_).trans ?_
    · intro hzero
      exact hne (hmem.symm.trans hzero)
    · have hnext : BitVec.ofNat 32 o + 1 = BitVec.ofNat 32 (o + 1) := (BitVec.ofNat_add o 1).symm
      rw [hnext, hstep, List.length_cons]
      congr 2
      omega

theorem fdtTagalign_ofNat (h : n + 3 < 2 ^ 32) : fdtTagalign (BitVec.ofNat 32 n) = BitVec.ofNat 32 (tagalign n) := by
  have hn : (BitVec.ofNat 32 n).toNat = n := Nat.mod_eq_of_lt (by omega)
  apply BitVec.eq_of_toNat_eq
  rw [toNat_fdtTagalign (by omega), hn, tagalign]
  exact (Nat.mod_eq_of_lt (by omega)).symm

/-- Where a token ends, without the bytes that fill it up. -/
theorem Placed.tagEnd (h : b.Placed) (hnamed : t.Named) (hold : b.Holds o t.bytes) :
    b.tagEnd t.tag (BitVec.ofNat 32 (o + 4)) = some (BitVec.ofNat 32 (o + 4 + t.body.length)) := by
  have hsize := h.size
  have hbody : b.Holds (o + 4) t.body := (holds_append.mp hold).2
  have hbound := hbody.1
  cases t with
  | beginNode name =>
    have hlong : name.length < 2 ^ 32 := by
      simp only [Token.body, List.length_append] at hbound
      omega
    have hskip := h.skipName hnamed hbody hlong
    simpa [Blob.tagEnd, Token.tag, Token.body, Nat.add_assoc] using hskip
  | prop nameoff value =>
    simp only [Token.body, List.length_append] at hbound hbody
    have hlen : b.fdt32 (b.ptr (BitVec.ofNat 32 (o + 4))) = BitVec.ofNat 32 value.length :=
      (holds_append.mp hbody).1.fdt32
    have hfour : (be32 (BitVec.ofNat 32 value.length)).length = 4 := rfl
    have hptr := h.offsetPtr_four (o := o + 4) (by omega)
    have hend : BitVec.ofNat 32 (o + 4) + (8 + BitVec.ofNat 32 value.length) =
        BitVec.ofNat 32 (o + 4 + (Token.prop nameoff value).body.length) := by
      have height : (8 : Word) = BitVec.ofNat 32 8 := rfl
      rw [height, ← BitVec.ofNat_add, ← BitVec.ofNat_add]
      congr 1
      simp [Token.body, be32]
      omega
    unfold Blob.tagEnd
    have hprop : (Token.prop nameoff value).tag = fdtProp := rfl
    rw [hprop, if_neg (by decide), if_pos rfl, hptr]
    dsimp only
    rw [hlen, hend]
  | endNode => rfl
  | nop => rfl
  | endTree => rfl

/-- `fdt_next_tag` at a token. -/
theorem nextTag_token (h : b.Placed) (halign : o % 4 = 0) (hnamed : t.Named) (hold : b.Holds o t.bytes) :
    b.nextTag (BitVec.ofNat 32 o) = (t.tag, BitVec.ofNat 32 (o + t.size)) := by
  have hsize := h.size
  have hbound := hold.1
  rw [Token.length_bytes] at hbound
  have htag : b.fdt32 (b.ptr (BitVec.ofNat 32 o)) = t.tag := (holds_append.mp hold).1.fdt32
  have hfirst := h.offsetPtr_four (o := o) (by omega)
  have hlen : (BitVec.ofNat 32 (4 + t.body.length)).toNat = 4 + t.body.length := Nat.mod_eq_of_lt (by omega)
  have hwhole := @Placed.offsetPtr _ o (BitVec.ofNat 32 (4 + t.body.length)) h (by omega)
  have hend := h.tagEnd hnamed hold
  have hfour : BitVec.ofNat 32 o + 4 = BitVec.ofNat 32 (o + 4) := (BitVec.ofNat_add o 4).symm
  have hsub : BitVec.ofNat 32 (o + 4 + t.body.length) - BitVec.ofNat 32 o =
      BitVec.ofNat 32 (4 + t.body.length) := by
    rw [Nat.add_assoc, BitVec.ofNat_add]
    bv_omega
  unfold Blob.nextTag
  rw [hfirst]
  dsimp only
  rw [htag, hfour, hend]
  dsimp only
  have hfill : tagalign (o + 4 + t.body.length) = o + t.size := by
    rw [Token.size, tagalign, tagalign]
    omega
  rw [hsub, hwhole, fdtTagalign_ofNat (by omega), hfill]

end Token

end Blob

end SeCloak
