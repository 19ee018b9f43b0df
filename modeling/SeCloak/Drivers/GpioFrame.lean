import SeCloak.Drivers.GpioIrq

/-!
# What an operation on a pin changes (`imx_gpio.c:184-257`)

Each operation changes one bit, or the two-bit field of one pin in the pair `ICR1` and `ICR2`.
`gpio_set_dir` shifts its argument to the pin without a mask, so that it stays on the pin for the two
directions there are and for no other argument.
-/

namespace SeCloak
open Misc

namespace Port

/-- `gpio_set_dir` (`imx_gpio.c:184-188`) with its argument of type `int`. -/
def gpioSetDir (p : Port) (index : Nat) (direction : Word) : Port :=
  { p with regs := { p.regs with
      gdir := (p.regs.gdir &&& ~~~BitVec.twoPow 32 index) ||| (direction <<< index) } }

/-- `setDir` is the operation for `GPIO_DIR_OUTPUT` and `GPIO_DIR_INPUT`. -/
theorem setDir_eq (p : Port) (index : Nat) (output : Bool) :
    p.setDir index output = p.gpioSetDir index (if output then 1 else 0) := rfl

/-- `gpio_write` (`imx_gpio.c:455-464`). -/
def gpioWrite (p : Port) (index : Nat) (value : Bool) : Port :=
  let dr := p.regs.dr
  { p with regs := { p.regs with
      dr := if value then dr ||| BitVec.twoPow 32 index else dr &&& ~~~BitVec.twoPow 32 index } }

/-! ## The other pins -/

/-- The bits and the fields of all pins but `i` are the same. -/
structure OnlyPin (i : Nat) (p q : Port) : Prop where
  dr : ∀ j, j ≠ i → q.regs.dr.getLsbD j = p.regs.dr.getLsbD j
  gdir : ∀ j, j ≠ i → q.regs.gdir.getLsbD j = p.regs.gdir.getLsbD j
  imr : ∀ j, j ≠ i → q.regs.imr.getLsbD j = p.regs.imr.getLsbD j
  edgeSel : ∀ j, j ≠ i → q.regs.edgeSel.getLsbD j = p.regs.edgeSel.getLsbD j
  bothEdges : ∀ j, j ≠ i → q.bothEdges.getLsbD j = p.bothEdges.getLsbD j
  icr : ∀ j < 32, j ≠ i → q.icr j = p.icr j

variable {p q r : Port} {i j : Nat}

theorem OnlyPin.refl (i : Nat) (p : Port) : p.OnlyPin i p :=
  ⟨fun _ _ => rfl, fun _ _ => rfl, fun _ _ => rfl, fun _ _ => rfl, fun _ _ => rfl, fun _ _ _ => rfl⟩

theorem OnlyPin.trans (h : p.OnlyPin i q) (h' : q.OnlyPin i r) : p.OnlyPin i r where
  dr j hj := (h'.dr j hj).trans (h.dr j hj)
  gdir j hj := (h'.gdir j hj).trans (h.gdir j hj)
  imr j hj := (h'.imr j hj).trans (h.imr j hj)
  edgeSel j hj := (h'.edgeSel j hj).trans (h.edgeSel j hj)
  bothEdges j hj := (h'.bothEdges j hj).trans (h.bothEdges j hj)
  icr j hlt hj := (h'.icr j hlt hj).trans (h.icr j hlt hj)

theorem getLsbD_clear_of_ne (hi : i < 32) (x : Word) (hne : j ≠ i) :
    (x &&& ~~~BitVec.twoPow 32 i).getLsbD j = x.getLsbD j := by
  rw [getLsbD_and_not_twoPow x i j hi, decide_eq_false (Ne.symm hne), Bool.not_false, Bool.and_true]

/-- Setting or clearing a bit leaves the others. -/
theorem getLsbD_setBit_of_ne {x : Word} {c : Prop} [Decidable c] (hi : i < 32) (hne : j ≠ i) :
    (if c then x ||| BitVec.twoPow 32 i else x &&& ~~~BitVec.twoPow 32 i).getLsbD j = x.getLsbD j := by
  split
  · exact getLsbD_or_twoPow_of_ne hne
  · exact getLsbD_clear_of_ne hi x hne

theorem onlyPin_gpioSetDir {direction : Word} (hdir : direction = 0 ∨ direction = 1) (hi : i < 32)
    (p : Port) : p.OnlyPin i (p.gpioSetDir i direction) := by
  refine ⟨fun _ _ => rfl, fun j hne => ?_, fun _ _ => rfl, fun _ _ => rfl, fun _ _ => rfl,
    fun _ _ _ => rfl⟩
  have hshift : (direction <<< i).getLsbD j = false := by
    rcases hdir with rfl | rfl
    · simp
    · have hone : (1 : Word) <<< i = BitVec.twoPow 32 i := (BitVec.twoPow_eq 32 i).symm
      rw [hone, BitVec.getLsbD_twoPow]
      simp [Ne.symm hne]
  change ((p.regs.gdir &&& ~~~BitVec.twoPow 32 i) ||| (direction <<< i)).getLsbD j = _
  rw [BitVec.getLsbD_or, hshift, Bool.or_false, getLsbD_clear_of_ne hi _ hne]

theorem onlyPin_irqMask (hi : i < 32) (p : Port) (mask : Bool) : p.OnlyPin i (p.irqMask i mask) := by
  refine ⟨fun _ _ => rfl, fun _ _ => rfl, fun j hne => ?_, fun _ _ => rfl, fun _ _ => rfl,
    fun _ _ _ => rfl⟩
  cases mask with
  | true => exact getLsbD_setBit_of_ne (c := False) hi hne
  | false => exact getLsbD_setBit_of_ne (c := True) hi hne

theorem onlyPin_gpioWrite (hi : i < 32) (p : Port) (value : Bool) :
    p.OnlyPin i (p.gpioWrite i value) :=
  ⟨fun _ hne => getLsbD_setBit_of_ne hi hne, fun _ _ => rfl, fun _ _ => rfl, fun _ _ => rfl,
    fun _ _ => rfl, fun _ _ _ => rfl⟩

theorem onlyPin_irqAck (p : Port) (i : Nat) : p.OnlyPin i (p.irqAck i) :=
  ⟨fun _ _ => rfl, fun _ _ => rfl, fun _ _ => rfl, fun _ _ => rfl, fun _ _ => rfl, fun _ _ _ => rfl⟩

/-! ## Fields -/

/-- The codes of a variant fit into a field. -/
theorem and_three_code (ty : HwType) {edge : Word}
    (h : edge ∈ [(hwData ty).lowLevel, (hwData ty).highLevel, (hwData ty).riseEdge,
      (hwData ty).fallEdge]) : edge &&& 3 = edge := by
  simp only [List.mem_cons, List.not_mem_nil, or_false] at h
  rcases h with rfl | rfl | rfl | rfl <;> cases ty <;> rfl

theorem getLsbD_of_and_three {edge : Word} (h : edge &&& 3 = edge) :
    ∀ k ≥ 2, edge.getLsbD k = false := by
  intro k hk
  rw [← h, BitVec.getLsbD_and]
  have hthree : (3 : Word).getLsbD k = false := by
    rw [show (3 : Word) = 3#32 from rfl, getLsbD_three, decide_eq_false (Nat.not_lt.mpr hk)]
  rw [hthree, Bool.and_false]

theorem onlyPin_writeIcr {edge : Word} (hedge : edge &&& 3 = edge) (hi : i < 32) (p : Port) :
    p.OnlyPin i (p.writeIcr i edge) := by
  refine ⟨fun _ _ => ?_, fun _ _ => ?_, fun _ _ => ?_, fun _ _ => ?_, fun _ _ => ?_,
    fun j hj hne => icr_writeIcr (getLsbD_of_and_three hedge) hi hj hne⟩ <;>
  · unfold writeIcr
    split <;> rfl

/-- A field reads back what was written to it. -/
theorem icr_writeIcr_self {edge : Word} (hedge : edge &&& 3 = edge) (p : Port) (i : Nat) :
    (p.writeIcr i edge).icr i = edge := by
  have hput : ∀ x : Word,
      ((x &&& ~~~(3#32 <<< ((i % 16) * 2))) ||| (edge <<< ((i % 16) * 2))) >>> ((i % 16) * 2) &&& 3#32 =
        edge := by
    intro x
    apply BitVec.eq_of_getLsbD_eq
    intro k hk
    simp only [BitVec.getLsbD_and, BitVec.getLsbD_ushiftRight, BitVec.getLsbD_or,
      BitVec.getLsbD_not, BitVec.getLsbD_shiftLeft, getLsbD_three]
    by_cases hk2 : k < 2
    · have hbit : (i % 16) * 2 + k < 32 := by omega
      have hfield : ¬ (i % 16) * 2 + k < (i % 16) * 2 := by omega
      simp [hbit, hk2, hfield]
    · rw [getLsbD_of_and_three hedge k (by omega)]
      simp [hk2]
  unfold writeIcr icr
  split_ifs <;> exact hput _

theorem onlyPin_flipEdge (ty : HwType) (hi : i < 32) (p : Port) :
    p.OnlyPin i (p.flipEdge (hwData ty) i) := by
  unfold flipEdge
  split_ifs
  · exact onlyPin_writeIcr (and_three_code ty (by simp)) hi p
  · exact onlyPin_writeIcr (and_three_code ty (by simp)) hi p
  · exact OnlyPin.refl i p

/-! ## The trigger of a pin -/

/-- The code of a type in `ICR1` and `ICR2`, for the types other than both edges. -/
def codeOf (hw : HwData) (type : Word) : Word :=
  if type = irqTypeEdgeRising then hw.riseEdge
  else if type = irqTypeEdgeFalling then hw.fallEdge
  else if type = irqTypeLevelLow then hw.lowLevel
  else hw.highLevel

/-- The types of edges and levels. -/
def validTypes : List Word :=
  [irqTypeEdgeRising, irqTypeEdgeFalling, irqTypeEdgeBoth, irqTypeLevelLow, irqTypeLevelHigh]

/-- The configuration of the pin is the one for the type. Both edges are a bit in `EDGE_SEL`, or, without
that register, the level opposite to the one the pin had, which is to be flipped on each interrupt. -/
def Encodes (hw : HwData) (type : Word) (level : Bool) (q : Port) (i : Nat) : Prop :=
  if type = irqTypeEdgeBoth then
    if 0 ≤ hw.edgeSelReg then q.regs.edgeSel.getLsbD i = true ∧ q.bothEdges.getLsbD i = false
    else q.icr i = (if level then hw.lowLevel else hw.highLevel) ∧ q.bothEdges.getLsbD i = true
  else q.icr i = codeOf hw type ∧ q.anyEdge hw i = false ∧ q.bothEdges.getLsbD i = false

/-- The bit of the pin in `EDGE_SEL` (`imx_gpio.c:239-245`). -/
def selectEdge (hw : HwData) (p : Port) (index : Nat) (edge : Word) : Port :=
  if 0 ≤ hw.edgeSelReg then
    let val := p.regs.edgeSel
    { p with regs := { p.regs with
        edgeSel := if edge = gpioIntBothEdges then val ||| BitVec.twoPow 32 index
          else val &&& ~~~BitVec.twoPow 32 index } }
  else p

/-- What `gpio_set_irq_type` does once it has a code. -/
def configure (hw : HwData) (p : Port) (index : Nat) (edge both : Word) : Port :=
  let p := selectEdge hw { p with bothEdges := both } index edge
  let p := if edge ≠ gpioIntBothEdges then p.writeIcr index edge else p
  p.irqAck index

section Configure

variable {hw : HwData} {type edge both : Word}

theorem setIrqType_of_edgeOf (h : edgeOf hw p i type = some (edge, both)) :
    (p.setIrqType hw i type).1 = p.configure hw i edge both := by
  rw [setIrqType, h]
  rfl

theorem onlyPin_selectEdge (hi : i < 32) (p : Port) : p.OnlyPin i (p.selectEdge hw i edge) := by
  unfold selectEdge
  split
  · exact ⟨fun _ _ => rfl, fun _ _ => rfl, fun _ _ => rfl, fun _ hne => getLsbD_setBit_of_ne hi hne,
      fun _ _ => rfl, fun _ _ _ => rfl⟩
  · exact OnlyPin.refl i p

theorem onlyPin_configure (hedge : edge = gpioIntBothEdges ∨ edge &&& 3 = edge) (hi : i < 32)
    (hboth : ∀ j, j ≠ i → both.getLsbD j = p.bothEdges.getLsbD j) :
    p.OnlyPin i (p.configure hw i edge both) := by
  have hmask : p.OnlyPin i { p with bothEdges := both } :=
    ⟨fun _ _ => rfl, fun _ _ => rfl, fun _ _ => rfl, fun _ _ => rfl, hboth, fun _ _ _ => rfl⟩
  have hsel : p.OnlyPin i ({ p with bothEdges := both }.selectEdge hw i edge) :=
    hmask.trans (onlyPin_selectEdge hi _)
  unfold configure
  dsimp only
  refine OnlyPin.trans ?_ (onlyPin_irqAck _ i)
  split
  · rename_i hne
    exact hsel.trans (onlyPin_writeIcr (hedge.resolve_left hne) hi _)
  · exact hsel

/-! What the pin itself gets. -/

@[simp] theorem bothEdges_writeIcr : (p.writeIcr i edge).bothEdges = p.bothEdges := by
  unfold writeIcr
  split <;> rfl

@[simp] theorem edgeSel_writeIcr : (p.writeIcr i edge).regs.edgeSel = p.regs.edgeSel := by
  unfold writeIcr
  split <;> rfl

@[simp] theorem bothEdges_selectEdge : (p.selectEdge hw i edge).bothEdges = p.bothEdges := by
  unfold selectEdge
  split <;> rfl

@[simp] theorem bothEdges_configure : (p.configure hw i edge both).bothEdges = both := by
  unfold configure
  dsimp only
  split <;> simp [irqAck, writeIsr]

theorem edgeSel_configure (h : 0 ≤ hw.edgeSelReg) : (p.configure hw i edge both).regs.edgeSel =
    if edge = gpioIntBothEdges then p.regs.edgeSel ||| BitVec.twoPow 32 i
    else p.regs.edgeSel &&& ~~~BitVec.twoPow 32 i := by
  unfold configure selectEdge
  dsimp only
  rw [if_pos h]
  split_ifs <;> simp [irqAck, writeIsr]

theorem ne_bothEdges (hedge : edge &&& 3 = edge) : edge ≠ gpioIntBothEdges := by
  rintro rfl
  exact absurd hedge (by decide)

theorem icr_configure (hedge : edge &&& 3 = edge) : (p.configure hw i edge both).icr i = edge := by
  unfold configure
  dsimp only
  rw [if_pos (ne_bothEdges hedge)]
  exact icr_writeIcr_self hedge _ i

/-- A code clears the bit of the pin in `EDGE_SEL`. -/
theorem anyEdge_configure (hedge : edge &&& 3 = edge) (hi : i < 32) :
    (p.configure hw i edge both).anyEdge hw i = false := by
  unfold anyEdge
  by_cases h : 0 ≤ hw.edgeSelReg
  · rw [edgeSel_configure h, if_neg (ne_bothEdges hedge)]
    simp [hi]
  · simp [h]

end Configure

/-- A type that has no code only clears the bit in `both_edges`. -/
theorem onlyPin_setIrqType (ty : HwType) (hi : i < 32) (p : Port) (type : Word) :
    p.OnlyPin i (p.setIrqType (hwData ty) i type).1 := by
  have hclear : ∀ j, j ≠ i →
      (p.bothEdges &&& ~~~BitVec.twoPow 32 i).getLsbD j = p.bothEdges.getLsbD j :=
    fun j hne => getLsbD_clear_of_ne hi p.bothEdges hne
  have hset : ∀ j, j ≠ i → ((p.bothEdges &&& ~~~BitVec.twoPow 32 i) ||| BitVec.twoPow 32 i).getLsbD j =
      p.bothEdges.getLsbD j :=
    fun j hne => (getLsbD_or_twoPow_of_ne hne).trans (hclear j hne)
  cases hcode : edgeOf (hwData ty) p i type with
  | none =>
    rw [setIrqType, hcode]
    exact ⟨fun _ _ => rfl, fun _ _ => rfl, fun _ _ => rfl, fun _ _ => rfl, hclear, fun _ _ _ => rfl⟩
  | some code =>
    obtain ⟨edge, both⟩ := code
    rw [setIrqType_of_edgeOf hcode]
    unfold edgeOf at hcode
    dsimp only at hcode
    split_ifs at hcode <;> obtain ⟨rfl, rfl⟩ := Prod.mk.inj (Option.some.inj hcode)
    · exact onlyPin_configure (Or.inr (and_three_code ty (by simp))) hi hclear
    · exact onlyPin_configure (Or.inr (and_three_code ty (by simp))) hi hclear
    · exact onlyPin_configure (Or.inl rfl) hi hclear
    · exact onlyPin_configure (Or.inr (and_three_code ty (by simp))) hi hset
    · exact onlyPin_configure (Or.inr (and_three_code ty (by simp))) hi hset
    · exact onlyPin_configure (Or.inr (and_three_code ty (by simp))) hi hclear
    · exact onlyPin_configure (Or.inr (and_three_code ty (by simp))) hi hclear

/-- The types with a code of their own. -/
theorem edgeOf_eq_codeOf {hw : HwData} {type : Word} (h : type ∈ validTypes)
    (hne : type ≠ irqTypeEdgeBoth) :
    edgeOf hw p i type = some (codeOf hw type, p.bothEdges &&& ~~~BitVec.twoPow 32 i) := by
  simp only [validTypes, List.mem_cons, List.not_mem_nil, or_false] at h
  rcases h with rfl | rfl | rfl | rfl | rfl
  · rfl
  · rfl
  · exact absurd rfl hne
  · rfl
  · rfl

theorem codeOf_mem (hw : HwData) (type : Word) :
    codeOf hw type ∈ [hw.lowLevel, hw.highLevel, hw.riseEdge, hw.fallEdge] := by
  unfold codeOf
  split_ifs <;> simp

theorem encodes_setIrqType (ty : HwType) (hi : i < 32) (p : Port) {type : Word}
    (h : type ∈ validTypes) :
    Encodes (hwData ty) type (p.getValue i) (p.setIrqType (hwData ty) i type).1 i := by
  unfold Encodes
  by_cases hboth : type = irqTypeEdgeBoth
  · subst hboth
    rw [if_pos rfl]
    by_cases hsel : 0 ≤ (hwData ty).edgeSelReg
    · have hcode : edgeOf (hwData ty) p i irqTypeEdgeBoth =
          some (gpioIntBothEdges, p.bothEdges &&& ~~~BitVec.twoPow 32 i) := by
        change (if 0 ≤ (hwData ty).edgeSelReg then _ else _) = _
        rw [if_pos hsel]
      rw [if_pos hsel, setIrqType_of_edgeOf hcode, edgeSel_configure hsel, if_pos rfl,
        bothEdges_configure]
      simp [hi]
    · have hcode : edgeOf (hwData ty) p i irqTypeEdgeBoth =
          some (if p.getValue i then (hwData ty).lowLevel else (hwData ty).highLevel,
            (p.bothEdges &&& ~~~BitVec.twoPow 32 i) ||| BitVec.twoPow 32 i) := by
        change (if 0 ≤ (hwData ty).edgeSelReg then _ else _) = _
        rw [if_neg hsel]
      have hfits : (if p.getValue i then (hwData ty).lowLevel else (hwData ty).highLevel) &&& 3 =
          if p.getValue i then (hwData ty).lowLevel else (hwData ty).highLevel := by
        split <;> exact and_three_code ty (by simp)
      rw [if_neg hsel, setIrqType_of_edgeOf hcode, icr_configure hfits, bothEdges_configure]
      simp [hi]
  · have hcode : edgeOf (hwData ty) p i type =
        some (codeOf (hwData ty) type, p.bothEdges &&& ~~~BitVec.twoPow 32 i) :=
      edgeOf_eq_codeOf h hboth
    have hfits := and_three_code ty (codeOf_mem (hwData ty) type)
    rw [if_neg hboth, setIrqType_of_edgeOf hcode, icr_configure hfits, anyEdge_configure hfits hi,
      bothEdges_configure]
    simp [hi]

/-- Each operation on a pin, with a direction that there is, leaves the other pins alone, and a valid
type configures the pin for it. -/
theorem onlyPin_operations (ty : HwType) (p : Port) (i : Nat) (hi : i < 32) (direction type : Word)
    (mask value : Bool) (hdir : direction = 0 ∨ direction = 1) :
    p.OnlyPin i (p.gpioSetDir i direction) ∧ p.OnlyPin i (p.irqMask i mask) ∧
      p.OnlyPin i (p.setIrqType (hwData ty) i type).1 ∧ p.OnlyPin i (p.gpioWrite i value) ∧
      p.OnlyPin i (p.flipEdge (hwData ty) i) ∧
      (type ∈ validTypes →
        Encodes (hwData ty) type (p.getValue i) (p.setIrqType (hwData ty) i type).1 i) :=
  ⟨onlyPin_gpioSetDir hdir hi p, onlyPin_irqMask hi p mask, onlyPin_setIrqType ty hi p type,
    onlyPin_gpioWrite hi p value, onlyPin_flipEdge ty hi p, encodes_setIrqType ty hi p⟩

/-- A port with all pins masked. -/
def samplePort : Port where
  dev := .root ⟨0, 0, .other, [], [], [], [], false⟩
  pbase := 0x0209C000
  base := 0x0209C000
  irq := ⟨.gic, 98⟩
  irqHigh := some ⟨.gic, 99⟩
  irqPass := ⟨.gic, 98⟩

/-- The highest pin of a port with `EDGE_SEL`, for both edges. -/
theorem onlyPin_operations_top :
    samplePort.OnlyPin 31 (samplePort.gpioSetDir 31 1) ∧
      (samplePort.setIrqType (hwData .imx35) 31 irqTypeEdgeBoth).1.regs.edgeSel.getLsbD 31 = true :=
  have h := onlyPin_operations .imx35 samplePort 31 (by decide) 1 irqTypeEdgeBoth true true
    (Or.inr rfl)
  ⟨h.1, (h.2.2.2.2.2 (by decide)).1⟩

/-- The direction 2 of pin 0 is the direction 1 of pin 1. -/
theorem not_onlyPin_gpioSetDir : ¬ samplePort.OnlyPin 0 (samplePort.gpioSetDir 0 2) := by
  intro h
  have hbit := h.gdir 1 (by decide)
  exact absurd hbit (by decide)

end Port

end SeCloak
