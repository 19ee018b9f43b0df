import SeCloak.Mm.VaSpace

/-!
# Relations between buffers (`tee_misc.c:92-136`)

A buffer is an address and a length. The end of a buffer that reaches the top of the address space is
2^32, which `b + bl` wraps to zero and `b - 1 + bl` does not. The first spelling is used where a
buffer is compared for lying outside of an area, the second where it is compared for lying inside.
-/

namespace SeCloak
open Misc

/-- `_core_is_buffer_outside` (`tee_misc.c:113-123`). -/
def coreIsBufferOutside (b bl a al : Word) : Bool :=
  isValidConfAndNotnullSize b bl a al && (b + bl ≤ a || a + al ≤ b)

/-- The addresses of a buffer. -/
def bufferSpan (b bl : Word) : Span := ⟨b.toNat, b.toNat + bl.toNat⟩

/-- A buffer of at least one byte whose end is at most 2^32. -/
structure Buffered (b bl : Word) : Prop where
  pos : 0 < bl
  fits : b.toNat + bl.toNat ≤ 2 ^ 32

variable {b bl a al : Word}

theorem Buffered.pos_toNat (h : Buffered b bl) : 0 < bl.toNat := h.pos

/-! ## Ends of buffers -/

/-- The last address of a buffer does not wrap. -/
theorem Buffered.toNat_last (h : Buffered b bl) : (b - 1 + bl).toNat = b.toNat + bl.toNat - 1 := by
  have hpos := h.pos_toNat
  have hfits := h.fits
  have hone : (1 : Word).toNat = 1 := rfl
  rw [BitVec.toNat_add, BitVec.toNat_sub, hone]
  omega

/-- The end of a buffer wraps at the top of the address space and nowhere else. -/
theorem Buffered.toNat_end (h : Buffered b bl) :
    (b + bl).toNat = if b.toNat + bl.toNat = 2 ^ 32 then 0 else b.toNat + bl.toNat := by
  have hfits := h.fits
  rw [BitVec.toNat_add]
  split <;> omega

theorem isValidConfAndNotnullSize_eq (hb : Buffered b bl) (ha : Buffered a al) :
    isValidConfAndNotnullSize b bl a al = true := by
  have hb' : b ≤ b - 1 + bl := by
    rw [BitVec.le_def, hb.toNat_last]
    have hpos := hb.pos_toNat
    omega
  have ha' : a ≤ a - 1 + al := by
    rw [BitVec.le_def, ha.toNat_last]
    have hpos := ha.pos_toNat
    omega
  have hbl : bl ≠ 0#32 := by
    rintro rfl
    exact absurd hb.pos_toNat (by simp)
  have hal : al ≠ 0#32 := by
    rintro rfl
    exact absurd ha.pos_toNat (by simp)
  simp only [isValidConfAndNotnullSize, Bool.and_eq_true, Bool.not_eq_true', Bool.or_eq_false_iff,
    decide_eq_false_iff_not, BitVec.not_lt, decide_eq_true_iff]
  exact ⟨⟨⟨hb', ha'⟩, hbl⟩, hal⟩

/-! ## The three predicates -/

theorem coreIsBufferInside_iff (hb : Buffered b bl) (ha : Buffered a al) :
    coreIsBufferInside b bl a al = true ↔ ∀ x, (bufferSpan b bl).Has x → (bufferSpan a al).Has x := by
  have hbpos := hb.pos_toNat
  have hapos := ha.pos_toNat
  rw [coreIsBufferInside, isValidConfAndNotnullSize_eq hb ha, Bool.true_and, Bool.and_eq_true,
    decide_eq_true_iff, decide_eq_true_iff, BitVec.le_def, BitVec.le_def, hb.toNat_last, ha.toNat_last]
  constructor
  · rintro ⟨hlo, hhi⟩ x ⟨hx₁, hx₂⟩
    simp only [bufferSpan, Span.Has] at hx₁ hx₂ ⊢
    omega
  · intro h
    have hfirst := h b.toNat ⟨Nat.le_refl _, by simp only [bufferSpan]; omega⟩
    have hlast := h (b.toNat + bl.toNat - 1) ⟨by simp only [bufferSpan]; omega, by
      simp only [bufferSpan]; omega⟩
    simp only [bufferSpan, Span.Has] at hfirst hlast
    omega

/-- Outside and intersecting are complementary, whatever the ends are. -/
theorem coreIsBufferOutside_eq_not (hb : Buffered b bl) (ha : Buffered a al) :
    coreIsBufferOutside b bl a al = !coreIsBufferIntersect b bl a al := by
  simp [coreIsBufferOutside, coreIsBufferIntersect, isValidConfAndNotnullSize_eq hb ha]

theorem coreIsBufferOutside_iff (hb : Buffered b bl) (ha : Buffered a al) :
    coreIsBufferOutside b bl a al = true ↔
      (bufferSpan b bl).Apart (bufferSpan a al) ∨ b.toNat + bl.toNat = 2 ^ 32 ∨
        a.toNat + al.toNat = 2 ^ 32 := by
  have hbpos := hb.pos_toNat
  have hapos := ha.pos_toNat
  rw [coreIsBufferOutside, isValidConfAndNotnullSize_eq hb ha, Bool.true_and, Bool.or_eq_true,
    decide_eq_true_iff, decide_eq_true_iff, BitVec.le_def, BitVec.le_def, hb.toNat_end, ha.toNat_end,
    Span.apart_iff (by simp only [bufferSpan]; omega) (by simp only [bufferSpan]; omega)]
  simp only [bufferSpan]
  split <;> split <;> omega

theorem coreIsBufferIntersect_iff (hb : Buffered b bl) (ha : Buffered a al) :
    coreIsBufferIntersect b bl a al = true ↔
      ¬ (bufferSpan b bl).Apart (bufferSpan a al) ∧ b.toNat + bl.toNat ≠ 2 ^ 32 ∧
        a.toNat + al.toNat ≠ 2 ^ 32 := by
  have h := coreIsBufferOutside_iff hb ha
  rw [coreIsBufferOutside_eq_not hb ha, Bool.not_eq_true'] at h
  rw [← Bool.not_eq_false, h, not_or, not_or]

/-- The predicates are the relations of the two sets of addresses. -/
structure DecideRelations (b bl a al : Word) : Prop where
  inside : coreIsBufferInside b bl a al = true ↔
    ∀ x, (bufferSpan b bl).Has x → (bufferSpan a al).Has x
  outside : coreIsBufferOutside b bl a al = true ↔ (bufferSpan b bl).Apart (bufferSpan a al)
  intersect : coreIsBufferIntersect b bl a al = true ↔ ¬ (bufferSpan b bl).Apart (bufferSpan a al)
  complementary : coreIsBufferOutside b bl a al = !coreIsBufferIntersect b bl a al

/-- A buffer that reaches the top of the address space is outside of all areas, itself included. -/
theorem decideRelations_iff (b bl a al : Word) (hb : Buffered b bl) (ha : Buffered a al) :
    DecideRelations b bl a al ↔
      (b.toNat + bl.toNat < 2 ^ 32 ∧ a.toNat + al.toNat < 2 ^ 32) ∨
        (bufferSpan b bl).Apart (bufferSpan a al) := by
  have hbfits := hb.fits
  have hafits := ha.fits
  constructor
  · intro h
    by_cases hapart : (bufferSpan b bl).Apart (bufferSpan a al)
    · exact Or.inr hapart
    · have hmeet := (coreIsBufferIntersect_iff hb ha).mp (h.intersect.mpr hapart)
      exact Or.inl ⟨by omega, by omega⟩
  · intro h
    refine ⟨coreIsBufferInside_iff hb ha, ?_, ?_, coreIsBufferOutside_eq_not hb ha⟩
    · rw [coreIsBufferOutside_iff hb ha]
      constructor
      · rintro (hapart | htop)
        · exact hapart
        · exact h.resolve_left (by omega)
      · exact Or.inl
    · rw [coreIsBufferIntersect_iff hb ha]
      constructor
      · exact fun hmeet => hmeet.1
      · intro hmeet
        have hlow := h.resolve_right hmeet
        exact ⟨hmeet, by omega, by omega⟩

/-- Two pages of a map. -/
theorem decideRelations_pages : Buffered 0x10000000 0x2000 ∧ Buffered 0x10001000 0x1000 ∧
    DecideRelations 0x10000000 0x2000 0x10001000 0x1000 :=
  have hb : Buffered 0x10000000 0x2000 := ⟨by decide, by decide⟩
  have ha : Buffered 0x10001000 0x1000 := ⟨by decide, by decide⟩
  ⟨hb, ha, (decideRelations_iff 0x10000000 0x2000 0x10001000 0x1000 hb ha).mpr
    (Or.inl ⟨by decide, by decide⟩)⟩

/-- The last page of the address space lies outside of itself. -/
theorem not_decideRelations_top : Buffered 0xFFFFF000 0x1000 ∧
    coreIsBufferOutside 0xFFFFF000 0x1000 0xFFFFF000 0x1000 = true ∧
    ¬ DecideRelations 0xFFFFF000 0x1000 0xFFFFF000 0x1000 := by
  refine ⟨⟨by decide, by decide⟩, by decide, fun h => ?_⟩
  have hapart := h.outside.mp (by decide)
  exact hapart 0xFFFFF000 (by decide) (by decide)

end SeCloak
