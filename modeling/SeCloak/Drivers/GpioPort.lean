import Mathlib.Logic.Function.Basic
import SeCloak.Misc.BitField
import SeCloak.State

/-!
# The pins of a GPIO port (`imx_gpio.c`)

The operations on one pin, as functions on the port, and the operations of the interrupt chip
that each port embeds. `ISR` is write-one-to-clear. A shift by 32 or more is undefined in the
source, so the operations of the chip fault on such a pin.
-/

namespace SeCloak
open Misc

/-- `imx1_imx21_gpio_hwdata`, `imx31_gpio_hwdata` and `imx35_gpio_hwdata`
(`imx_gpio.c:102-144`), as `mxc_gpio_get_hw` (`imx_gpio.c:580-597`) selects them. -/
def hwData : HwType → HwData
  | .imx1 | .imx21 =>
    { drReg := 0x1c, gdirReg := 0x00, psrReg := 0x24, icr1Reg := 0x28, icr2Reg := 0x2c,
      imrReg := 0x30, isrReg := 0x34, edgeSelReg := einval,
      lowLevel := 0x03, highLevel := 0x02, riseEdge := 0x00, fallEdge := 0x01 }
  | .imx31 =>
    { drReg := 0x00, gdirReg := 0x04, psrReg := 0x08, icr1Reg := 0x0c, icr2Reg := 0x10,
      imrReg := 0x14, isrReg := 0x18, edgeSelReg := einval,
      lowLevel := 0x00, highLevel := 0x01, riseEdge := 0x02, fallEdge := 0x03 }
  | .imx35 =>
    { drReg := 0x00, gdirReg := 0x04, psrReg := 0x08, icr1Reg := 0x0c, icr2Reg := 0x10,
      imrReg := 0x14, isrReg := 0x18, edgeSelReg := 0x1c,
      lowLevel := 0x00, highLevel := 0x01, riseEdge := 0x02, fallEdge := 0x03 }

/-- `GPIO_INT_BOTH_EDGES` (`imx_gpio.c:163`). -/
def gpioIntBothEdges : Word := 4

/-- `IRQ_TYPE_*` (`imx_gpio.c:168-175`). -/
def irqTypeEdgeRising : Word := 1
def irqTypeEdgeFalling : Word := 2
def irqTypeEdgeBoth : Word := 3
def irqTypeLevelHigh : Word := 4
def irqTypeLevelLow : Word := 8

namespace Port

/-- `gpio_get_value` (`imx_gpio.c:177-181`). -/
def getValue (p : Port) (index : Nat) : Bool := p.regs.psr.getLsbD index

/-- `gpio_set_dir` (`imx_gpio.c:183-187`). -/
def setDir (p : Port) (index : Nat) (output : Bool) : Port :=
  let gdir := (p.regs.gdir &&& ~~~BitVec.twoPow 32 index) |||
    ((if output then 1#32 else 0#32) <<< index)
  { p with regs := { p.regs with gdir := gdir } }

/-- `gpio_irq_mask` (`imx_gpio.c:189-196`). -/
def irqMask (p : Port) (index : Nat) (mask : Bool) : Port :=
  let imr := p.regs.imr
  { p with regs := { p.regs with
      imr := if mask then imr &&& ~~~BitVec.twoPow 32 index else imr ||| BitVec.twoPow 32 index } }

/-- A store of `v` to `ISR` acknowledges the interrupts in `v`. -/
def writeIsr (p : Port) (v : Word) : Port :=
  { p with regs := { p.regs with isr := p.regs.isr &&& ~~~v } }

/-- `gpio_irq_ack` (`imx_gpio.c:198-200`). -/
def irqAck (p : Port) (index : Nat) : Port := p.writeIsr (BitVec.twoPow 32 index)

/-- Replace the two-bit field of a pin in `ICR1` or `ICR2`; the register is chosen by bit 4 of
the pin number, the field by its low four bits. -/
def writeIcr (p : Port) (index : Nat) (edge : Word) : Port :=
  let shift := (index % 16) * 2
  let put (r : Word) : Word := (r &&& ~~~(3#32 <<< shift)) ||| (edge <<< shift)
  if index < 16 then { p with regs := { p.regs with icr1 := put p.regs.icr1 } }
  else { p with regs := { p.regs with icr2 := put p.regs.icr2 } }

/-- The edge code that `gpio_set_irq_type` picks for a type (`imx_gpio.c:208-235`), with the
`both_edges` mask it leaves. -/
def edgeOf (hw : HwData) (p : Port) (index : Nat) (type : Word) : Option (Word × Word) :=
  let both := p.bothEdges &&& ~~~BitVec.twoPow 32 index
  if type = irqTypeEdgeRising then some (hw.riseEdge, both)
  else if type = irqTypeEdgeFalling then some (hw.fallEdge, both)
  else if type = irqTypeEdgeBoth then
    if 0 ≤ hw.edgeSelReg then some (gpioIntBothEdges, both)
    else some (if p.getValue index then hw.lowLevel else hw.highLevel,
      both ||| BitVec.twoPow 32 index)
  else if type = irqTypeLevelLow then some (hw.lowLevel, both)
  else if type = irqTypeLevelHigh then some (hw.highLevel, both)
  else none

/-- `gpio_set_irq_type` (`imx_gpio.c:202-257`): the port and the return value. -/
def setIrqType (hw : HwData) (p : Port) (index : Nat) (type : Word) : Port × Int :=
  match edgeOf hw p index type with
  | none => ({ p with bothEdges := p.bothEdges &&& ~~~BitVec.twoPow 32 index }, einval)
  | some (edge, both) =>
    let p := { p with bothEdges := both }
    let p :=
      if 0 ≤ hw.edgeSelReg then
        let val := p.regs.edgeSel
        { p with regs := { p.regs with
            edgeSel := if edge = gpioIntBothEdges then val ||| BitVec.twoPow 32 index
              else val &&& ~~~BitVec.twoPow 32 index } }
      else p
    let p := if edge ≠ gpioIntBothEdges then p.writeIcr index edge else p
    (p.irqAck index, 0)

/-- `irq_op_secure` (`imx_gpio.c:701-706`). -/
def irqOpSecure (p : Port) (irq : Nat) : Port :=
  { p with secureMask := p.secureMask ||| BitVec.twoPow 32 irq }

/-- `irq_op_unsecure` (`imx_gpio.c:708-713`). -/
def irqOpUnsecure (p : Port) (irq : Nat) : Port :=
  { p with secureMask := p.secureMask &&& ~~~BitVec.twoPow 32 irq }

/-- `irq_op_add` (`imx_gpio.c:672-682`). -/
def irqOpAdd (hw : HwData) (p : Port) (irq : Nat) (flags : Word) : Port :=
  let p := p.irqOpSecure irq
  let p := p.setDir irq false
  let p := (p.setIrqType hw irq flags).1
  p.irqMask irq true

/-- The part of a port that is fixed when it is probed. -/
def fixed (p : Port) : Device × Word × Word × IrqDesc × Option IrqDesc × IrqDesc :=
  (p.dev, p.pbase, p.base, p.irq, p.irqHigh, p.irqPass)

@[simp] theorem fixed_irqMask (p : Port) (i : Nat) (m : Bool) : (p.irqMask i m).fixed = p.fixed := rfl
@[simp] theorem fixed_irqOpSecure (p : Port) (i : Nat) : (p.irqOpSecure i).fixed = p.fixed := rfl
@[simp] theorem fixed_irqOpUnsecure (p : Port) (i : Nat) : (p.irqOpUnsecure i).fixed = p.fixed := rfl
@[simp] theorem fixed_irqAck (p : Port) (i : Nat) : (p.irqAck i).fixed = p.fixed := rfl
@[simp] theorem fixed_setDir (p : Port) (i : Nat) (o : Bool) : (p.setDir i o).fixed = p.fixed := rfl

/-- The registers of the trigger type are all that changes. -/
theorem setIrqType_eq (hw : HwData) (p : Port) (i : Nat) (t : Word) :
    ∃ both icr1 icr2 edgeSel isr, (p.setIrqType hw i t).1 = { p with
      bothEdges := both,
      regs := { p.regs with icr1 := icr1, icr2 := icr2, edgeSel := edgeSel, isr := isr } } := by
  unfold setIrqType writeIcr
  split
  · exact ⟨_, _, _, _, _, rfl⟩
  · dsimp only
    split_ifs <;> exact ⟨_, _, _, _, _, rfl⟩

@[simp] theorem fixed_setIrqType (hw : HwData) (p : Port) (i : Nat) (t : Word) :
    (p.setIrqType hw i t).1.fixed = p.fixed := by
  obtain ⟨_, _, _, _, _, h⟩ := setIrqType_eq hw p i t
  rw [h]
  rfl

@[simp] theorem fixed_irqOpAdd (hw : HwData) (p : Port) (i : Nat) (f : Word) :
    (p.irqOpAdd hw i f).fixed = p.fixed := by
  simp [irqOpAdd]

/-- `irq_op_add` secures the pin and masks it. -/
theorem irqOpAdd_masks (hw : HwData) (p : Port) (i : Nat) (f : Word) :
    (p.irqOpAdd hw i f).secureMask = p.secureMask ||| BitVec.twoPow 32 i ∧
      (p.irqOpAdd hw i f).regs.imr = p.regs.imr &&& ~~~BitVec.twoPow 32 i := by
  obtain ⟨_, _, _, _, _, h⟩ := setIrqType_eq hw ((p.irqOpSecure i).setDir i false) i f
  rw [irqOpAdd, h]
  exact ⟨rfl, rfl⟩

end Port

/-! ## Operations of the chip -/

/-- Update the `n`-th port; the pointer of a chip always leads to a port that was allocated. -/
def modifyPort (n : Nat) (f : Port → Port) : Kernel Unit := do
  let s ← Code.get
  match s.gpio.port n with
  | none => Code.throw .undefined
  | some p => Code.modify fun s =>
      { s with gpio := { s.gpio with port := Function.update s.gpio.port n (some (f p)) } }

/-- Update a port through an operation on the pin `irq`. -/
def modifyPin (n irq : Nat) (f : Port → Port) : Kernel Int := do
  Code.require (irq < 32) .undefined
  modifyPort n f
  pure 0

/-- `irq_op_enable` (`imx_gpio.c:689-693`). -/
def gpioOpEnable (n irq : Nat) : Kernel Int := modifyPin n irq (·.irqMask irq false)

/-- `irq_op_disable` (`imx_gpio.c:695-699`). -/
def gpioOpDisable (n irq : Nat) : Kernel Int := modifyPin n irq (·.irqMask irq true)

/-- `irq_op_secure` (`imx_gpio.c:701-706`). -/
def gpioOpSecure (n irq : Nat) : Kernel Int := modifyPin n irq (·.irqOpSecure irq)

/-- `irq_op_unsecure` (`imx_gpio.c:708-713`). -/
def gpioOpUnsecure (n irq : Nat) : Kernel Int := modifyPin n irq (·.irqOpUnsecure irq)

/-- `irq_op_remove` (`imx_gpio.c:684-687`). -/
def gpioOpRemove (n irq : Nat) : Kernel Int := modifyPin n irq (·.irqOpUnsecure irq)

/-- `irq_op_add` (`imx_gpio.c:672-682`); the register layout comes from `mxc_gpio_hwdata`. -/
def gpioOpAdd (n irq : Nat) (flags : Word) : Kernel Int := do
  let s ← Code.get
  match s.gpio.hwtype with
  | none => Code.throw .undefined
  | some hw => modifyPin n irq (·.irqOpAdd (hwData hw) irq flags)

/-- `irq_op_raise` (`imx_gpio.c:715-718`). -/
def gpioOpRaise : Kernel Int := pure einval

theorem modifyPort_runs {n : Nat} {f : Port → Port} {s s' : Sys} {w : List Event} {u : Unit}
    (h : Code.Runs (modifyPort n f) s w u s') :
    w = [] ∧ ∃ p, s.gpio.port n = some p ∧
      s' = { s with gpio := { s.gpio with port := Function.update s.gpio.port n (some (f p)) } } := by
  rw [modifyPort, Code.runs_get_bind] at h
  cases hport : s.gpio.port n with
  | none => simp [hport] at h
  | some p =>
    simp only [hport, Code.runs_modify] at h
    exact ⟨h.1, p, rfl, h.2⟩

theorem modifyPin_runs {n irq : Nat} {f : Port → Port} {s s' : Sys} {w : List Event} {r : Int}
    (h : Code.Runs (modifyPin n irq f) s w r s') :
    irq < 32 ∧ w = [] ∧ ∃ p, s.gpio.port n = some p ∧
      s' = { s with gpio := { s.gpio with port := Function.update s.gpio.port n (some (f p)) } } := by
  rw [modifyPin, Code.runs_require_bind, Code.runs_bind] at h
  obtain ⟨hlt, _, _, _, _, hp, hr, rfl⟩ := h
  obtain ⟨rfl, p, hport, rfl⟩ := modifyPort_runs hp
  obtain ⟨rfl, -, rfl⟩ := Code.runs_pure.mp hr
  exact ⟨hlt, rfl, p, hport, rfl⟩

theorem modifyPort_stops {n : Nat} {f : Port → Port} {s : Sys} {w : List Event} {e : Fault}
    (h : Code.Stops (modifyPort n f) s w e) :
    w = [] ∧ e = .undefined ∧ s.gpio.port n = none := by
  rw [modifyPort, Code.stops_get_bind] at h
  cases hport : s.gpio.port n with
  | none =>
    simp only [hport, Code.stops_throw] at h
    exact ⟨h.1, h.2, rfl⟩
  | some p => simp [hport] at h

/-- An operation on a pin stops only where there is no such pin. -/
theorem modifyPin_stops {n irq : Nat} {f : Port → Port} {s : Sys} {w : List Event} {e : Fault}
    (h : Code.Stops (modifyPin n irq f) s w e) :
    w = [] ∧ e = .undefined ∧ ¬ (irq < 32 ∧ (s.gpio.port n).isSome = true) := by
  rw [modifyPin, Code.stops_require_bind] at h
  obtain ⟨hlt, rfl, rfl⟩ | ⟨hlt, h⟩ := h
  · exact ⟨rfl, rfl, fun hpin => hlt hpin.1⟩
  · obtain h | ⟨_, _, _, _, -, hpure, -⟩ := Code.stops_bind.mp h
    · obtain ⟨hw, he, hport⟩ := modifyPort_stops h
      exact ⟨hw, he, fun hpin => by simp [hport] at hpin⟩
    · exact absurd hpure Code.stops_pure

end SeCloak
