import SeCloak.Drivers.Fb
import SeCloak.Drivers.Gpio
import SeCloak.Drivers.GpioKeys
import SeCloak.Platform

/-!
# Boot

`csu_init` runs first (`main.c:79-82`); then `dt_probe` walks the device tree, allocates the
devices and calls the probe function of each driver that matches (`dt.c:472-501`). What the tree
says reaches a probe function through its arguments, so a boot is a list of probes.
-/

namespace SeCloak
open Misc

/-- `gic_probe` (`gic.c:234-260`) of the interrupt controller; `maxIt` is what `probe_max_it`
finds. -/
def gicProbe (env : Env) (dev : Device) (maxIt : Nat) : Kernel Int :=
  if dev.info.resources.length ≠ 2 ∨ dev.info.resourceType ≠ .mem then pure einval
  else do
    modifyGic (·.init maxIt)
    let _ ← irqConstructChip env .gic maxIt false
    pure 0

/-- `gic_probe` of the power controller, which shares `g_gic.max_it`. -/
def gpcProbe (env : Env) : Kernel Int := do
  let s ← Code.get
  let _ ← irqConstructChip env .gpc (s.chip .gic).numIrqs false
  pure 0

/-- A step of `dt_probe`: a driver is probed, or the parser allocates. -/
inductive Probe where
  | gic (dev : Device) (maxIt : Nat)
  | gpc
  | gpio (dev : Device) (hwtype : HwType) (vaddr : Option Word) (regs : GpioRegs)
  | fb (dev : Device) (mapped : Bool) (cpmem : Option Word) (words : Nat → Word)
  | keys (nodes : List KeyNode)
  | alloc

/-- The probe function; `dt_probe_device` ignores what it returns. -/
def Probe.run (env : Env) : Probe → Kernel Int
  | .gic dev maxIt => gicProbe env dev maxIt
  | .gpc => gpcProbe env
  | .gpio dev hwtype vaddr regs => mxcGpioProbe env dev hwtype vaddr regs
  | .fb dev mapped cpmem words => fbProbe dev mapped cpmem words
  | .keys nodes => gpioKeysProbe env nodes
  | .alloc => do
    let ok ← malloc env
    pure (if ok then 0 else enomem)

/-- The probes of a boot. -/
def dtProbe (env : Env) (probes : List Probe) : Kernel Unit :=
  Code.forEach (fun p => do
    let _ ← p.run env
    pure ()) probes

/-- Boot up to the point where the non-secure world starts. -/
def boot (env : Env) (probes : List Probe) : Kernel Unit := do
  csuInit env true
  dtProbe env probes

/-! ## A small board -/

namespace Board

/-- The bus that all devices are on. -/
def soc : Device := .root { node := 0, resourceType := .other, isSimpleBus := true }

/-- A device on the bus with one range of registers. -/
def onBus (node : Int) (address size : Word) (info : DeviceInfo) : Device :=
  .child { info with node := node, resources := [⟨⟨address, 0, 0, 0⟩, ⟨size, 0, 0, 0⟩⟩] } soc

def gic : Device :=
  .child { node := 1, resourceType := .mem, resources :=
    [⟨⟨0x00A01000, 0, 0, 0⟩, ⟨0x1000, 0, 0, 0⟩⟩, ⟨⟨0x00A00100, 0, 0, 0⟩, ⟨0x100, 0, 0, 0⟩⟩] } soc

def gpio1 : Device :=
  onBus 2 0x0209C000 0x4000 { node := 2, resourceType := .mem, csu := [3], irqs :=
    [⟨⟨.gic, 98⟩, 4⟩, ⟨⟨.gic, 99⟩, 4⟩, ⟨⟨.gic, 100⟩, 4⟩] }

def ipu : Device := onBus 3 0x02400000 0x400000 { node := 3, resourceType := .mem }

/-- A radio that can be protected. -/
def wlan : Device :=
  onBus 4 0x02190000 0x4000
    { node := 4, resourceType := .mem, csu := [12], irqs := [⟨⟨.gic, 54⟩, 4⟩]
      classes := [ascii ['w', 'i', 'f', 'i']] }

/-- A modem that nothing on the way to the root can protect. -/
def modem : Device :=
  onBus 5 0x02184000 0x200 { node := 5, resourceType := .mem,
                             classes := [ascii ['c', 'e', 'l', 'l', 'u', 'l', 'a', 'r']] }

/-- A radio with the CSL of the port. -/
def bluetooth : Device :=
  onBus 6 0x021E8000 0x4000 { node := 6, resourceType := .mem, csu := [3],
                              classes := [ascii ['b', 'l', 'u', 'e', 't', 'o', 'o', 't', 'h']] }

def table : DeviceTable where
  bucket n := if n = 0 then [soc, gic, gpio1, ipu, wlan, modem, bluetooth] else []

def keyNodes : List KeyNode :=
  [⟨some keyHomepage, some ⟨some (.gpio 0), 5, 1, 0⟩⟩, ⟨some keyBack, some ⟨some (.gpio 0), 4, 1, 0⟩⟩]

/-- The screen has a single pixel, which is enough to draw nothing outside of it. -/
def probes : List Probe :=
  [.gic gic 159, .gpc, .gpio gpio1 .imx35 (some 0x51F9C000) {},
   .fb ipu true (some 0x52600000) (fun _ => 0), .keys keyNodes]

/-- The board after boot, with one instruction in non-secure memory. -/
def booted (env : Env) (instr : Word) : Sys := (boot env probes).after (resetWithInstr instr)

end Board

end SeCloak
