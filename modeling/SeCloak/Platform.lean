import SeCloak.State

/-!
# The platform

The i.MX6 board the kernel is built for: the memory windows that `main.c` registers, and the
state of kernel and hardware at reset.
-/

namespace SeCloak

/-- The build for the board: `main.c:59-60`, `platform_config.h`. -/
def imx6 : Env where
  asserts := true
  malloc := fun _ => true
  fbVaddr := some 0x7B800000
  pixels := fun _ _ => 0
  data := ⟨0x00100000, 0x50000000, 0x03300000⟩
  instr := ⟨0x10000000, 0x10000000, 0x3B800000⟩
  gicd := 0x00A01000

/-- A build without asserts. -/
def imx6Release : Env := { imx6 with asserts := false }

/-- The state at reset: all static variables are zero, every device that will be created starts
enabled, and the registers and the memory hold what they hold. -/
def resetSys (csl : Nat → Word) (sa : Word) (gic : Gic) (cpmem : Nat → Word) (fbmem : Nat → Byte)
    (mem : Word → Byte) : Sys where
  enabled := fun _ => true
  csu := { csl := csl, sa := sa }
  regions := []
  gic := gic
  chip := fun _ => {}
  gpio := {}
  keys := none
  secpwr := .state0
  fb := { cpmem := cpmem, mem := fbmem }
  cloak := {}
  allocs := 0
  mem := mem

/-- All interrupts disabled and secure. -/
def zeroGic : Gic := ⟨fun _ => 0, fun _ => 0, fun _ => 0, fun _ => 0, fun _ => 0⟩

/-- Memory that holds one instruction word at the start of the non-secure memory. -/
def memWithInstr (instr : Word) : Word → Byte := fun a =>
  if (a - 0x10000000).toNat < 4 then instr.extractLsb' (8 * (a - 0x10000000).toNat) 8 else 0

/-- A reset with all registers zero and one instruction in memory. -/
def resetWithInstr (instr : Word) : Sys :=
  resetSys (fun _ => 0) 0 zeroGic (fun _ => 0) (fun _ => 0) (memWithInstr instr)

end SeCloak
