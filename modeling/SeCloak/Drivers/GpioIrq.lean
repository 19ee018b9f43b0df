import SeCloak.Drivers.Gpio
import SeCloak.Drivers.GpioKeysProps

/-!
# Interrupts of pins (`imx_gpio.c:466-544`)

The level of a pin is what `PSR` samples. A change of the level, or the level itself, latches the
interrupt of the pin in `ISR`, depending on `EDGE_SEL` and on the field of the pin in `ICR1` or
`ICR2`. The handler of a port takes all latched interrupts that are not masked, the highest pin
first, and hands each of them to the handler of the pin.
-/

namespace SeCloak
open Misc

/-! ## Levels -/

namespace Port

/-- The field of a pin in `ICR1` or `ICR2`. -/
def icr (p : Port) (i : Nat) : Word :=
  ((if i < 16 then p.regs.icr1 else p.regs.icr2) >>> ((i % 16) * 2)) &&& 3

/-- `EDGE_SEL` makes the pin trigger on both edges, whatever its field says. -/
def anyEdge (hw : HwData) (p : Port) (i : Nat) : Bool :=
  decide (0 ≤ hw.edgeSelReg) && p.regs.edgeSel.getLsbD i

/-- A change of the pin to `level` latches its interrupt. -/
def edgeMet (hw : HwData) (p : Port) (i : Nat) (level : Bool) : Bool :=
  p.anyEdge hw i || (decide (p.icr i = hw.riseEdge) && level) ||
    (decide (p.icr i = hw.fallEdge) && !level)

/-- The level of the pin latches its interrupt as long as it lasts. -/
def levelMet (hw : HwData) (p : Port) (i : Nat) : Bool :=
  !p.anyEdge hw i && ((decide (p.icr i = hw.highLevel) && p.getValue i) ||
    (decide (p.icr i = hw.lowLevel) && !p.getValue i))

/-- The pin is driven to a level. -/
def drive (hw : HwData) (p : Port) (i : Nat) (level : Bool) : Port :=
  let bit := BitVec.twoPow 32 i
  if p.getValue i = level then p
  else { p with regs := { p.regs with
    psr := if level then p.regs.psr ||| bit else p.regs.psr &&& ~~~bit
    isr := if p.edgeMet hw i level then p.regs.isr ||| bit else p.regs.isr } }

/-- A level that lasts. -/
def latch (hw : HwData) (p : Port) (i : Nat) : Port :=
  if p.levelMet hw i then { p with regs := { p.regs with isr := p.regs.isr ||| BitVec.twoPow 32 i } }
  else p

/-! ## The handler of a port -/

/-- `mxc_flip_edge` (`imx_gpio.c:466-488`). -/
def flipEdge (hw : HwData) (p : Port) (i : Nat) : Port :=
  if p.icr i = hw.highLevel then p.writeIcr i hw.lowLevel
  else if p.icr i = hw.lowLevel then p.writeIcr i hw.highLevel
  else p

/-- The interrupt is passed to the non-secure world, and masked until it acknowledges it
(`imx_gpio.c:515-516`). -/
def passIrq (p : Port) (i : Nat) : Port :=
  Port.irqMask { p with passedIrqMask := p.passedIrqMask ||| BitVec.twoPow 32 i } i true

end Port

/-- `enum irq_return` (`interrupt.h:36-41`). -/
inductive IrqReturn where
  | none
  | handled
  | handledPass
  | handledDefault
  deriving DecidableEq

/-- `chip->ops->disable` (`interrupt.c:92` and `interrupt.c:100`). -/
def chipDisable (d : IrqDesc) : Kernel Int :=
  match d.chip with
  | .gic | .gpc => gicOpDisable d.irq
  | .gpio n => gpioOpDisable n d.irq

/-- `irq_handle` (`interrupt.c:79-103`), with what the handler objects do. -/
def irqHandle (handle : Handler → Kernel IrqReturn) (d : IrqDesc) : Kernel IrqReturn := do
  irqCheckValid d
  let s ← Code.get
  match (s.chip d.chip).handlers with
  | none => Code.throw .undefined
  | some table =>
    match table d.irq with
    | none =>
      if (s.chip d.chip).defaultHandler then pure .handledDefault
      else do
        let _ ← chipDisable d
        pure .none
    | some handler => do
      let ret ← handle handler
      Code.runIf (ret = .none) (do
        let _ ← chipDisable d
        pure ())
      pure ret

/-- `gpio_keys_handler` (`imx_gpio_keys.c:51-61`) for the interrupt of the `b`-th button. -/
def gpioKeysIrq (b : Nat) : Kernel IrqReturn := do
  let s ← Code.get
  match s.keys.bind (·.buttons) with
  | none => Code.throw .undefined
  | some buttons =>
    match buttons[b]? with
    | none => Code.throw .undefined
    | some button => do
      let consume ← gpioKeysHandler button.code
      pure (if consume then .handled else .handledPass)

/-- The handlers of pins. The handler of another port that is chained to a pin always returns
`ITRR_HANDLED`; its own loop is a run of that port. -/
def pinHandler : Handler → Kernel IrqReturn
  | .button b => gpioKeysIrq b
  | .port _ | .portHigh _ => pure .handled

/-- The body of the loop of `mxc_gpio_irq_handler` (`imx_gpio.c:503-526`) for the pin
`irqoffset`. -/
def mxcGpioServe (n irqoffset : Nat) : Kernel Unit := do
  let s ← Code.get
  match s.gpio.hwtype with
  | none => Code.throw .undefined
  | some ty => do
    modifyPort n fun p => if p.bothEdges.getLsbD irqoffset then p.flipEdge (hwData ty) irqoffset else p
    let ret ← irqHandle pinHandler ⟨.gpio n, irqoffset⟩
    match ret with
    | .handled => modifyPort n (·.irqAck irqoffset)
    | .handledPass => modifyPort n (·.passIrq irqoffset)
    | .none | .handledDefault =>
      modifyPort n fun p => if p.secureMask.getLsbD irqoffset then p else p.passIrq irqoffset

/-- The pins of `irq_stat` in the order of the loop: `fls` finds the highest one. -/
def irqOffsets (irqStat : Word) : List Nat := (List.range 32).reverse.filter (irqStat.getLsbD ·)

/-- The end of `mxc_gpio_irq_handler` (`imx_gpio.c:529-531`). -/
def mxcGpioRaise (env : Env) (n : Nat) : Kernel Unit := do
  let s ← Code.get
  match s.gpio.port n with
  | none => Code.throw .undefined
  | some p =>
    Code.runIf (p.passedIrqMask ≠ 0) (do
      let _ ← irqRaise env p.irqPass
      pure ())

/-- `mxc_gpio_irq_handler` (`imx_gpio.c:500-532`). -/
def mxcGpioIrqHandler (env : Env) (n : Nat) (irqStat : Word) : Kernel Unit := do
  Code.forEach (mxcGpioServe n) (irqOffsets irqStat)
  mxcGpioRaise env n

/-- The latched interrupts of a port that are not masked (`imx_gpio.c:540`); the offsets of the
registers come from `mxc_gpio_hwdata`. -/
def mx3GpioIrqStat (n : Nat) : Kernel Word := do
  let s ← Code.get
  match s.gpio.hwtype with
  | none => Code.throw .undefined
  | some _ =>
    match s.gpio.port n with
    | none => Code.throw .undefined
    | some p => pure (p.regs.isr &&& p.regs.imr)

/-- `mx3_gpio_irq_handler` (`imx_gpio.c:535-544`). -/
def mx3GpioIrqHandler (env : Env) (n : Nat) : Kernel IrqReturn := do
  let irqStat ← mx3GpioIrqStat n
  mxcGpioIrqHandler env n irqStat
  pure .handled

/-! ## What a pin leaves to the others -/

namespace Port

/-- All pins but `i` keep their level and their configuration, and none of them gets latched. -/
structure Keeps (i : Nat) (p q : Port) : Prop where
  level : ∀ j < 32, j ≠ i → q.getValue j = p.getValue j
  latched : ∀ j < 32, j ≠ i → q.regs.isr.getLsbD j = true → p.regs.isr.getLsbD j = true
  edgeSel : ∀ j < 32, j ≠ i → q.regs.edgeSel.getLsbD j = p.regs.edgeSel.getLsbD j
  icr : ∀ j < 32, j ≠ i → q.icr j = p.icr j

theorem Keeps.refl (i : Nat) (p : Port) : p.Keeps i p :=
  ⟨fun _ _ _ => rfl, fun _ _ _ h => h, fun _ _ _ => rfl, fun _ _ _ => rfl⟩

/-- Acknowledging and masking change nothing but `ISR` and `IMR`. -/
theorem keeps_irqAck (p : Port) (i : Nat) : p.Keeps i (p.irqAck i) := by
  refine ⟨fun _ _ _ => rfl, fun j _ _ h => ?_, fun _ _ _ => rfl, fun _ _ _ => rfl⟩
  change (p.regs.isr &&& ~~~BitVec.twoPow 32 i).getLsbD j = true at h
  rw [BitVec.getLsbD_and, Bool.and_eq_true] at h
  exact h.1

theorem keeps_irqMask (p : Port) (i j : Nat) (m : Bool) : p.Keeps i (p.irqMask j m) :=
  ⟨fun _ _ _ => rfl, fun _ _ _ h => h, fun _ _ _ => rfl, fun _ _ _ => rfl⟩

theorem keeps_passIrq (p : Port) (i : Nat) : p.Keeps i (p.passIrq i) :=
  ⟨fun _ _ _ => rfl, fun _ _ _ h => h, fun _ _ _ => rfl, fun _ _ _ => rfl⟩

/-- The fields of different pins do not overlap. -/
theorem icr_writeIcr {p : Port} {i j : Nat} {edge : Word} (hedge : ∀ k ≥ 2, edge.getLsbD k = false)
    (hi : i < 32) (hj : j < 32) (hne : j ≠ i) : (p.writeIcr i edge).icr j = p.icr j := by
  have hput : ∀ r : Word, j % 16 ≠ i % 16 →
      ((r &&& ~~~(3#32 <<< ((i % 16) * 2))) ||| (edge <<< ((i % 16) * 2))) >>> ((j % 16) * 2) &&& 3#32 =
        r >>> ((j % 16) * 2) &&& 3#32 := by
    intro r hfield
    apply BitVec.eq_of_getLsbD_eq
    intro k hk
    simp only [BitVec.getLsbD_and, BitVec.getLsbD_ushiftRight, BitVec.getLsbD_or,
      BitVec.getLsbD_not, BitVec.getLsbD_shiftLeft, getLsbD_three]
    by_cases hk2 : k < 2
    · have hbit : (j % 16) * 2 + k < 32 := by omega
      by_cases hlt : (j % 16) * 2 + k < (i % 16) * 2
      · simp [hbit, hlt]
      · have hge : 2 ≤ (j % 16) * 2 + k - (i % 16) * 2 := by omega
        rw [hedge _ hge]
        simp [hbit, hlt, Nat.not_lt.mpr hge]
    · simp [hk2]
  unfold writeIcr icr
  split_ifs <;> first | exact hput _ (by omega) | rfl

theorem keeps_writeIcr {p : Port} {i : Nat} {edge : Word} (hedge : ∀ k ≥ 2, edge.getLsbD k = false)
    (hi : i < 32) : p.Keeps i (p.writeIcr i edge) := by
  refine ⟨fun j _ _ => ?_, fun j _ _ h => ?_, fun j _ _ => ?_,
    fun j hj hne => icr_writeIcr hedge hi hj hne⟩
  · unfold writeIcr getValue
    split <;> rfl
  · unfold writeIcr at h
    split at h <;> exact h
  · unfold writeIcr
    split <;> rfl

theorem keeps_flipEdge (ty : HwType) (p : Port) {i : Nat} (hi : i < 32) :
    p.Keeps i (p.flipEdge (hwData ty) i) := by
  have hcode : ∀ k ≥ 2, (hwData ty).lowLevel.getLsbD k = false ∧
      (hwData ty).highLevel.getLsbD k = false := by
    intro k hk
    by_cases hlt : k < 32
    · revert hk hlt ty
      have hall : ∀ ty, ∀ k < 32, k ≥ 2 → (hwData ty).lowLevel.getLsbD k = false ∧
          (hwData ty).highLevel.getLsbD k = false := by
        intro ty
        cases ty <;> decide
      exact fun ty hk hlt => hall ty k hlt hk
    · exact ⟨BitVec.getLsbD_of_ge _ _ (Nat.not_lt.mp hlt),
        BitVec.getLsbD_of_ge _ _ (Nat.not_lt.mp hlt)⟩
  unfold flipEdge
  split_ifs
  · exact keeps_writeIcr (fun k hk => (hcode k hk).1) hi
  · exact keeps_writeIcr (fun k hk => (hcode k hk).2) hi
  · exact Keeps.refl i p

theorem getLsbD_or_twoPow_of_ne {r : Word} {i j : Nat} (hne : j ≠ i) :
    (r ||| BitVec.twoPow 32 i).getLsbD j = r.getLsbD j := by
  simp [BitVec.getLsbD_twoPow, Ne.symm hne]

theorem keeps_drive (hw : HwData) (p : Port) (i : Nat) (level : Bool) :
    p.Keeps i (p.drive hw i level) := by
  unfold drive
  by_cases hsame : p.getValue i = level
  · rw [if_pos hsame]
    exact Keeps.refl i p
  rw [if_neg hsame]
  refine ⟨fun j hj hne => ?_, fun j _ hne h => ?_, fun _ _ _ => rfl, fun _ _ _ => rfl⟩
  · change BitVec.getLsbD (if level = true then _ else _) j = p.regs.psr.getLsbD j
    cases level with
    | true => exact getLsbD_or_twoPow_of_ne hne
    | false => simp [hj, hne]
  · change BitVec.getLsbD (if p.edgeMet hw i level = true then _ else _) j = true at h
    split at h
    · rwa [getLsbD_or_twoPow_of_ne hne] at h
    · exact h

theorem keeps_latch (hw : HwData) (p : Port) (i : Nat) : p.Keeps i (p.latch hw i) := by
  unfold latch
  split_ifs
  · refine ⟨fun _ _ _ => rfl, fun j _ hne h => ?_, fun _ _ _ => rfl, fun _ _ _ => rfl⟩
    rwa [getLsbD_or_twoPow_of_ne hne] at h
  · exact Keeps.refl i p

/-! ## A pin at rest -/

/-- The pin is not at the level `pressed`, and no interrupt of it is latched or about to be. -/
def Settled (hw : HwData) (pressed : Bool) (p : Port) (i : Nat) : Prop :=
  p.getValue i ≠ pressed ∧ p.regs.isr.getLsbD i = false ∧ p.levelMet hw i = false

instance (hw : HwData) (pressed : Bool) (p : Port) (i : Nat) : Decidable (p.Settled hw pressed i) := by
  unfold Settled
  infer_instance

/-- What happens to one pin leaves the other pins at rest. -/
theorem Keeps.settled {hw : HwData} {pressed : Bool} {p q : Port} {i j : Nat} (h : p.Keeps i q)
    (hj : j < 32) (hne : j ≠ i) (hset : p.Settled hw pressed j) : q.Settled hw pressed j := by
  obtain ⟨hlevel, hlatched, hmet⟩ := hset
  have hvalue := h.level j hj hne
  refine ⟨?_, ?_, ?_⟩
  · rw [hvalue]
    exact hlevel
  · apply Bool.eq_false_iff.mpr
    intro hq
    rw [h.latched j hj hne hq] at hlatched
    cases hlatched
  · unfold levelMet anyEdge at hmet ⊢
    rw [hvalue, h.edgeSel j hj hne, h.icr j hj hne]
    exact hmet

/-- A pin at rest stays as it is when it is driven to the level it has, or its level lasts. -/
theorem Settled.drive {hw : HwData} {pressed : Bool} {p : Port} {i : Nat}
    (h : p.Settled hw pressed i) : p.drive hw i (!pressed) = p := by
  unfold Port.drive
  have hvalue : p.getValue i = !pressed := Bool.eq_not.mpr h.1
  rw [if_pos hvalue]

theorem Settled.latch {hw : HwData} {pressed : Bool} {p : Port} {i : Nat}
    (h : p.Settled hw pressed i) : p.latch hw i = p := by
  unfold Port.latch
  rw [h.2.2]
  rfl

/-- An acknowledgement of the non-secure world changes `ISR`, `IMR` and the mask of passed
interrupts. -/
theorem keeps_ackPassed (p : Port) (i : Nat) (value : Word) :
    p.Keeps i ((p.ackPassed value).writeIsr value) := by
  refine ⟨fun _ _ _ => rfl, fun j _ _ h => ?_, fun _ _ _ => rfl, fun _ _ _ => rfl⟩
  change (p.regs.isr &&& ~~~value).getLsbD j = true at h
  rw [BitVec.getLsbD_and, Bool.and_eq_true] at h
  exact h.1

end Port

end SeCloak
