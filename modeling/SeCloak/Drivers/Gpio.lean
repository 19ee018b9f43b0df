import SeCloak.Drivers.Csu
import SeCloak.Emulation.Regions
import SeCloak.Kernel.Interrupt

/-!
# GPIO ports (`imx_gpio.c`)

Probing a port, and the policy that the emulator applies to the registers of a port
(`gpio_emu_check`). The policy is a function of the port; only the acknowledgement of an
interrupt that was passed to the non-secure world changes the port.
-/

namespace SeCloak
open Misc

/-! ## Policy -/

/-- What `gpio_emu_check` answers: whether the access is allowed, the value it leaves, and
whether it acknowledges passed interrupts. -/
structure Verdict where
  allowed : Bool := true
  value : Word
  ack : Bool := false
  deriving DecidableEq

/-- The bits of `ICR1` or `ICR2` that belong to secured pins (`imx_gpio.c:360-365`). -/
def Port.secureIcrMask (p : Port) (high : Bool) : Word :=
  (List.range 16).foldl (fun mask i =>
    if p.secureMask.getLsbD (i + if high then 16 else 0) then mask ||| (3#32 <<< (2 * i))
    else mask) 0

/-- A register of which a store may not change the secured bits. -/
def keepSecured (old mask : Word) (state : EmuState) (value : Word) : Verdict :=
  match state with
  | .write => { allowed := decide (old &&& mask = value &&& mask), value := value }
  | _ => { value := value }

/-- A data register, which also reads as zero at the secured pins. -/
def hideSecured (old mask : Word) (state : EmuState) (value : Word) : Verdict :=
  match state with
  | .write => { allowed := decide (old &&& mask = value &&& mask), value := value }
  | .readBefore => { value := value }
  | .readAfter => { value := value &&& ~~~mask }

/-- The body of `gpio_emu_check` (`imx_gpio.c:281-386`) for the port of the region. -/
def Port.emuCheck (hw : HwData) (p : Port) (offset : Word) (state : EmuState) (value : Word) :
    Verdict :=
  if offset = hw.drReg then hideSecured p.regs.dr p.secureMask state value
  else if offset = hw.gdirReg then hideSecured p.regs.gdir p.secureMask state value
  else if offset = hw.isrReg then
    match state with
    | .write =>
      if value &&& p.secureMask ≠ 0 then
        if value &&& p.passedIrqMask = value then { value := value, ack := true }
        else { allowed := false, value := value }
      else { value := value }
    | .readBefore => { value := value }
    | .readAfter => { value := (value &&& ~~~p.secureMask) ||| p.passedIrqMask }
  else if offset = hw.imrReg then
    match state with
    | .write => { allowed := decide (~~~value &&& p.secureMask = 0), value := value }
    | .readBefore => { value := value }
    | .readAfter => { value := (value &&& ~~~p.secureMask) ||| p.passedIrqMask }
  else if offset = hw.psrReg then { value := value }
  else if offset = BitVec.ofInt 32 hw.edgeSelReg then
    keepSecured p.regs.edgeSel p.secureMask state value
  else if offset = hw.icr1Reg then keepSecured p.regs.icr1 (p.secureIcrMask false) state value
  else if offset = hw.icr2Reg then keepSecured p.regs.icr2 (p.secureIcrMask true) state value
  else { value := value }

/-- Whether `gpio_emu_check` looks at the port at all. -/
def gpioReadsPort (hw : HwData) (offset : Word) (state : EmuState) : Bool :=
  if offset = hw.drReg ∨ offset = hw.gdirReg ∨ offset = hw.isrReg ∨ offset = hw.imrReg then
    decide (state ≠ .readBefore)
  else if offset = hw.psrReg then false
  else if offset = BitVec.ofInt 32 hw.edgeSelReg then decide (state = .write)
  else decide (offset = hw.icr1Reg ∨ offset = hw.icr2Reg)

/-- `gpio_port_from_address` (`imx_gpio.c:270-279`). -/
def gpioPortFromAddress (g : Gpio) (base : Word) : Option (Nat × Port) :=
  g.ports.findSome? fun n =>
    match g.port n with
    | some p => if p.pbase = base then some (n, p) else none
    | none => none

theorem gpioPortFromAddress_some {g : Gpio} {base : Word} {n : Nat} {p : Port}
    (h : gpioPortFromAddress g base = some (n, p)) : g.port n = some p ∧ p.pbase = base := by
  obtain ⟨m, -, hm⟩ := List.exists_of_findSome?_eq_some h
  cases hq : g.port m with
  | none => simp [hq] at hm
  | some q =>
    simp only [hq] at hm
    split_ifs at hm with hb
    obtain ⟨rfl, rfl⟩ := Prod.mk.inj (Option.some.inj hm)
    exact ⟨hq, hb⟩

/-- Which port has an address depends on the base addresses only. -/
theorem gpioPortFromAddress_congr {γ : Type} {f : Port → γ}
    (hf : ∀ p q : Port, f p = f q → p.pbase = q.pbase) {g g' : Gpio} (hports : g'.ports = g.ports)
    (hport : ∀ n, (g'.port n).map f = (g.port n).map f) (base : Word) :
    (gpioPortFromAddress g' base).map (fun np => (np.1, f np.2)) =
      (gpioPortFromAddress g base).map (fun np => (np.1, f np.2)) := by
  unfold gpioPortFromAddress
  rw [hports, List.map_findSome?, List.map_findSome?]
  congr 1
  funext n
  have hn := hport n
  simp only [Function.comp_apply]
  cases hp' : g'.port n with
  | none =>
    cases hp : g.port n with
    | none => rfl
    | some p =>
      rw [hp', hp] at hn
      cases hn
  | some p' =>
    cases hp : g.port n with
    | none =>
      rw [hp', hp] at hn
      cases hn
    | some p =>
      rw [hp', hp] at hn
      have heq : f p' = f p := Option.some.inj hn
      by_cases hr : p.pbase = base
      · simp [hf _ _ heq, hr, heq]
      · simp [hf _ _ heq, hr]

theorem gpioPortFromAddress_fixed {g g' : Gpio} (hports : g'.ports = g.ports)
    (hfix : ∀ n, (g'.port n).map Port.fixed = (g.port n).map Port.fixed) (base : Word) :
    (gpioPortFromAddress g' base).map (fun np => (np.1, np.2.fixed)) =
      (gpioPortFromAddress g base).map (fun np => (np.1, np.2.fixed)) := by
  apply gpioPortFromAddress_congr (f := Port.fixed) _ hports hfix
  intro p q hpq
  exact congrArg (fun x => x.2.1) hpq

/-- A change that keeps what is fixed in the ports keeps which port has an address. -/
theorem gpioPortFromAddress_of_fixed {g g' : Gpio} {base : Word} {n : Nat} {p : Port}
    (hports : g'.ports = g.ports)
    (hfix : ∀ m, (g'.port m).map Port.fixed = (g.port m).map Port.fixed)
    (hport : gpioPortFromAddress g base = some (n, p)) :
    ∃ q, gpioPortFromAddress g' base = some (n, q) ∧ g'.port n = some q := by
  have hfind := gpioPortFromAddress_fixed hports hfix base
  rw [hport] at hfind
  obtain ⟨⟨m, q⟩, hq, hnq⟩ := Option.map_eq_some_iff.mp hfind
  obtain ⟨rfl, -⟩ := Prod.mk.inj hnq
  exact ⟨q, hq, (gpioPortFromAddress_some hq).1⟩

/-- Acknowledge passed interrupts and unmask them (`imx_gpio.c:315-317`). -/
def Port.ackPassed (p : Port) (value : Word) : Port :=
  { p with
    passedIrqMask := p.passedIrqMask &&& ~~~value
    regs := { p.regs with imr := p.regs.imr ||| value } }

/-- `gpio_emu_check` (`imx_gpio.c:281-386`): the verdict and the value it leaves. -/
def gpioEmuCheck (r : Region) (address : Word) (state : EmuState) (value : Word) :
    Kernel (Bool × Word) := do
  let s ← Code.get
  match s.gpio.hwtype with
  | none => Code.throw .undefined
  | some ty =>
    let hw := hwData ty
    let offset := address - r.base
    match gpioPortFromAddress s.gpio r.base with
    | none =>
      Code.require (gpioReadsPort hw offset state = false) .undefined
      pure (true, value)
    | some (n, p) =>
      let v := p.emuCheck hw offset state value
      Code.runIf (v.ack = true) do
        modifyPort n (·.ackPassed value)
        Code.emit fun _ => .write ⟨p.base + hw.imrReg, p.pbase + hw.imrReg, 4⟩
          (p.regs.imr ||| value)
      pure (v.allowed, v.value)

/-! ## Probing -/

/-- `ITRF_TRIGGER_LEVEL` (`interrupt.h:34`). -/
def itrfTriggerLevel : Word := 1

/-- `mxc_gpio_get_hw` (`imx_gpio.c:580-597`). -/
def mxcGpioGetHw (hwtype : HwType) : Kernel Unit := do
  let s ← Code.get
  Code.require (s.gpio.hwtype = none ∨ s.gpio.hwtype = some hwtype) .panic
  Code.modify fun s => { s with gpio := { s.gpio with hwtype := some hwtype } }

/-- `irq_add` and `irq_enable` of an interrupt of the port. -/
def gpioAddIrq (env : Env) (desc : IrqDesc) (handler : Handler) : Kernel Unit := do
  let _ ← irqAdd env desc itrfTriggerLevel handler
  let _ ← irqEnable env desc
  pure ()

/-- The last part of `mxc_gpio_probe` (`imx_gpio.c:640-648`): deny the non-secure world direct
access to the port and make it known. -/
def mxcGpioRegister (env : Env) (n : Nat) (dev : Device) (pbase size : Word) : Kernel Int := do
  let _ ← emuAddRegion env pbase size .gpio
  match dev.info.csu with
  | [] => Code.throw .undefined
  | c :: _ =>
    csuSetCsl env c true
    let _ ← irqConstructChip env (.gpio n) 32 true
    Code.modify fun s => { s with gpio := { s.gpio with ports := n :: s.gpio.ports } }
    pure 0

/-- `mxc_gpio_probe` from the first access to the registers on (`imx_gpio.c:622-648`), for the
`n`-th port. -/
def mxcGpioSetup (env : Env) (n : Nat) (hwtype : HwType) (firstPort : Bool) (port : Port)
    (size : Word) : Kernel Int := do
  Code.modify fun s => { s with gpio := { s.gpio with
    allocated := n + 1, port := Function.update s.gpio.port n (some port) } }
  Code.runIf (hwtype ≠ .imx21 ∨ firstPort = true) (gpioAddIrq env port.irq (.port n))
  Code.forEach (fun desc =>
    Code.runIf (hwtype ≠ .imx21) (gpioAddIrq env desc (.portHigh n))) port.irqHigh.toList
  mxcGpioRegister env n port.dev port.pbase size

/-- `mxc_gpio_probe` (`imx_gpio.c:599-649`). `vaddr` is where the registers are mapped, if the
mapping succeeds, and `regs` what they hold at that time. -/
def mxcGpioProbe (env : Env) (dev : Device) (hwtype : HwType) (vaddr : Option Word)
    (regs : GpioRegs) : Kernel Int := do
  let ok ← malloc env
  if ok = false then pure enomem
  else do
    let s ← Code.get
    mxcGpioGetHw hwtype
    match dev.info.resources, dev.info.resourceType, vaddr with
    | [r], .mem, some base =>
      let port (irq : IrqInfo) (irqHigh : Option IrqInfo) (irqPass : IrqInfo) : Port :=
        { dev := dev, pbase := r.address.c0, base := base, irq := irq.desc,
          irqHigh := irqHigh.map (·.desc), irqPass := irqPass.desc,
          regs := { regs with imr := 0, isr := 0 } }
      match dev.info.irqs with
      | [i₀, i₁] =>
        mxcGpioSetup env s.gpio.allocated hwtype s.gpio.hwtype.isNone (port i₀ none i₁) r.size.c0
      | [i₀, i₁, i₂] =>
        mxcGpioSetup env s.gpio.allocated hwtype s.gpio.hwtype.isNone (port i₀ (some i₁) i₂)
          r.size.c0
      | _ => pure einval
    | _, _, _ => pure einval

end SeCloak
