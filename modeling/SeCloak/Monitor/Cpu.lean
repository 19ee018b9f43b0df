import SeCloak.Misc.BitField
import SeCloak.Misc.Words
import SeCloak.State

/-!
# Registers and instructions of the monitor

The registers that the exception handlers of the secure monitor work on, with a bank for each mode
(`sm.h:36-57`), and the instructions that the handlers are written in. A handler is the composition of
its instructions; the address of the instruction that runs is not followed, except where an exception
is taken or left.
-/

namespace SeCloak
open Misc

/-! ## Modes -/

/-- `CPSR_MODE_*` (`arm32.h`). -/
inductive CpuMode where
  | usr | fiq | irq | svc | mon | abt | und | sys
  deriving DecidableEq

/-- The mode field of the program status. -/
def CpuMode.bits : CpuMode → Word
  | .usr => 0x10
  | .fiq => 0x11
  | .irq => 0x12
  | .svc => 0x13
  | .mon => 0x16
  | .abt => 0x17
  | .und => 0x1B
  | .sys => 0x1F

/-- `CPSR_MODE_MASK`. -/
def cpsrModeMask : Word := 0x1F

def CpuMode.ofBits (psr : Word) : CpuMode :=
  if psr &&& cpsrModeMask = 0x11 then .fiq
  else if psr &&& cpsrModeMask = 0x12 then .irq
  else if psr &&& cpsrModeMask = 0x13 then .svc
  else if psr &&& cpsrModeMask = 0x16 then .mon
  else if psr &&& cpsrModeMask = 0x17 then .abt
  else if psr &&& cpsrModeMask = 0x1B then .und
  else if psr &&& cpsrModeMask = 0x1F then .sys
  else .usr

/-- A program status with another mode. -/
def withMode (m : CpuMode) (psr : Word) : Word := maskWrite psr cpsrModeMask m.bits

theorem withMode_field (m : CpuMode) (psr : Word) : withMode m psr &&& cpsrModeMask = m.bits := by
  have hbits : m.bits &&& cpsrModeMask = m.bits := by cases m <;> decide
  rw [← hbits]
  apply BitVec.eq_of_getLsbD_eq
  intro i hi
  rw [BitVec.getLsbD_and, BitVec.getLsbD_and, withMode, getLsbD_maskWrite]
  cases cpsrModeMask.getLsbD i <;> simp

@[simp] theorem ofBits_withMode (m : CpuMode) (psr : Word) : CpuMode.ofBits (withMode m psr) = m := by
  unfold CpuMode.ofBits
  rw [withMode_field]
  cases m <;> decide

/-- The last change of the mode counts. -/
@[simp] theorem withMode_withMode (m m' : CpuMode) (psr : Word) :
    withMode m (withMode m' psr) = withMode m psr := by
  unfold withMode
  exact maskWrite_maskWrite _ _ _ _

/-- A change to the mode that is there changes nothing. -/
theorem withMode_mon {psr : Word} (h : CpuMode.ofBits psr = .mon) : withMode .mon psr = psr := by
  have hfield : psr &&& cpsrModeMask = 0x16 := by
    unfold CpuMode.ofBits at h
    split_ifs at h
    assumption
  apply maskWrite_same
  intro i hi
  have hbit := congrArg (fun w : Word => w.getLsbD i) hfield
  simpa [BitVec.getLsbD_and, hi, CpuMode.bits] using hbit.symm

/-! ## Registers -/

/-- `struct sm_mode_regs` (`sm.h:36-57`): the registers that each mode has of its own. -/
structure SmModeRegs where
  usrSp : Word
  usrLr : Word
  irqSpsr : Word
  irqSp : Word
  irqLr : Word
  fiqSpsr : Word
  fiqSp : Word
  fiqLr : Word
  svcSpsr : Word
  svcSp : Word
  svcLr : Word
  abtSpsr : Word
  abtSp : Word
  abtLr : Word
  undSpsr : Word
  undSp : Word
  undLr : Word
  deriving DecidableEq

namespace SmModeRegs

/-- The structure as it is stored. -/
def words (b : SmModeRegs) : List Word :=
  [b.usrSp, b.usrLr, b.irqSpsr, b.irqSp, b.irqLr, b.fiqSpsr, b.fiqSp, b.fiqLr, b.svcSpsr, b.svcSp,
    b.svcLr, b.abtSpsr, b.abtSp, b.abtLr, b.undSpsr, b.undSp, b.undLr]

/-- The structure at an address. -/
def load (m : Words) (a : Word) : SmModeRegs where
  usrSp := m (wordAt a 0)
  usrLr := m (wordAt a 1)
  irqSpsr := m (wordAt a 2)
  irqSp := m (wordAt a 3)
  irqLr := m (wordAt a 4)
  fiqSpsr := m (wordAt a 5)
  fiqSp := m (wordAt a 6)
  fiqLr := m (wordAt a 7)
  svcSpsr := m (wordAt a 8)
  svcSp := m (wordAt a 9)
  svcLr := m (wordAt a 10)
  abtSpsr := m (wordAt a 11)
  abtSp := m (wordAt a 12)
  abtLr := m (wordAt a 13)
  undSpsr := m (wordAt a 14)
  undSp := m (wordAt a 15)
  undLr := m (wordAt a 16)

end SmModeRegs

/-- The registers of the processor. `r` are those that all modes but FIQ share, `rFiq` has `R8` to
`R12` of FIQ mode, and `monSp`, `monLr` and `monSpsr` are those of monitor mode. -/
structure Cpu where
  r : Nat → Word
  rFiq : Nat → Word
  banks : SmModeRegs
  monSp : Word
  monLr : Word
  monSpsr : Word
  cpsr : Word
  pc : Word
  scr : Word
  mem : Words

namespace Cpu

/-- The mode that the processor is in. -/
def mode (c : Cpu) : CpuMode := CpuMode.ofBits c.cpsr

/-- A register as an instruction names it. -/
inductive Reg where
  | r (n : Nat)
  | sp
  | lr
  deriving DecidableEq

def sp (c : Cpu) : CpuMode → Word
  | .usr => c.banks.usrSp
  | .sys => c.banks.usrSp
  | .irq => c.banks.irqSp
  | .fiq => c.banks.fiqSp
  | .svc => c.banks.svcSp
  | .abt => c.banks.abtSp
  | .und => c.banks.undSp
  | .mon => c.monSp

def lr (c : Cpu) : CpuMode → Word
  | .usr => c.banks.usrLr
  | .sys => c.banks.usrLr
  | .irq => c.banks.irqLr
  | .fiq => c.banks.fiqLr
  | .svc => c.banks.svcLr
  | .abt => c.banks.abtLr
  | .und => c.banks.undLr
  | .mon => c.monLr

/-- User and system mode have no saved program status. -/
def spsr (c : Cpu) : CpuMode → Word
  | .usr => 0
  | .sys => 0
  | .irq => c.banks.irqSpsr
  | .fiq => c.banks.fiqSpsr
  | .svc => c.banks.svcSpsr
  | .abt => c.banks.abtSpsr
  | .und => c.banks.undSpsr
  | .mon => c.monSpsr

def setSp (c : Cpu) (v : Word) : CpuMode → Cpu
  | .usr => { c with banks := { c.banks with usrSp := v } }
  | .sys => { c with banks := { c.banks with usrSp := v } }
  | .irq => { c with banks := { c.banks with irqSp := v } }
  | .fiq => { c with banks := { c.banks with fiqSp := v } }
  | .svc => { c with banks := { c.banks with svcSp := v } }
  | .abt => { c with banks := { c.banks with abtSp := v } }
  | .und => { c with banks := { c.banks with undSp := v } }
  | .mon => { c with monSp := v }

def setLr (c : Cpu) (v : Word) : CpuMode → Cpu
  | .usr => { c with banks := { c.banks with usrLr := v } }
  | .sys => { c with banks := { c.banks with usrLr := v } }
  | .irq => { c with banks := { c.banks with irqLr := v } }
  | .fiq => { c with banks := { c.banks with fiqLr := v } }
  | .svc => { c with banks := { c.banks with svcLr := v } }
  | .abt => { c with banks := { c.banks with abtLr := v } }
  | .und => { c with banks := { c.banks with undLr := v } }
  | .mon => { c with monLr := v }

def setSpsr (c : Cpu) (v : Word) : CpuMode → Cpu
  | .usr => c
  | .sys => c
  | .irq => { c with banks := { c.banks with irqSpsr := v } }
  | .fiq => { c with banks := { c.banks with fiqSpsr := v } }
  | .svc => { c with banks := { c.banks with svcSpsr := v } }
  | .abt => { c with banks := { c.banks with abtSpsr := v } }
  | .und => { c with banks := { c.banks with undSpsr := v } }
  | .mon => { c with monSpsr := v }

def get (c : Cpu) : Reg → Word
  | .r n => if 8 ≤ n ∧ c.mode = .fiq then c.rFiq n else c.r n
  | .sp => c.sp c.mode
  | .lr => c.lr c.mode

def set (c : Cpu) (rd : Reg) (v : Word) : Cpu :=
  match rd with
  | .r n =>
    if 8 ≤ n ∧ c.mode = .fiq then { c with rFiq := Function.update c.rFiq n v }
    else { c with r := Function.update c.r n v }
  | .sp => c.setSp v c.mode
  | .lr => c.setLr v c.mode

/-! ## Instructions -/

/-- `cps #mode`. -/
def cps (m : CpuMode) (c : Cpu) : Cpu := { c with cpsr := withMode m c.cpsr }

/-- `mrs rd, spsr`. -/
def mrsSpsr (rd : Reg) (c : Cpu) : Cpu := c.set rd (c.spsr c.mode)

/-- `msr spsr_fsxc, rn`. -/
def msrSpsr (rn : Reg) (c : Cpu) : Cpu := c.setSpsr (c.get rn) c.mode

/-- `mov rd, rn`. -/
def mov (rd rn : Reg) (c : Cpu) : Cpu := c.set rd (c.get rn)

/-- `mov rd, #v`, and `ldr rd, =v`. -/
def movImm (rd : Reg) (v : Word) (c : Cpu) : Cpu := c.set rd v

/-- `add rd, rn, #(4 * n)`. -/
def addWords (rd rn : Reg) (n : Nat) (c : Cpu) : Cpu := c.set rd (wordAt (c.get rn) n)

/-- `sub rd, rn, #v`. -/
def sub (rd rn : Reg) (v : Word) (c : Cpu) : Cpu := c.set rd (c.get rn - v)

/-- `and rd, rn, rm`. -/
def and (rd rn rm : Reg) (c : Cpu) : Cpu := c.set rd (c.get rn &&& c.get rm)

/-- `bic rd, rn, rm`. -/
def bic (rd rn rm : Reg) (c : Cpu) : Cpu := c.set rd (c.get rn &&& ~~~c.get rm)

/-- `orr rd, rn, rm`. -/
def orr (rd rn rm : Reg) (c : Cpu) : Cpu := c.set rd (c.get rn ||| c.get rm)

/-- `str rn, [rd, #(4 * n)]`. -/
def str (rn rd : Reg) (n : Nat) (c : Cpu) : Cpu :=
  { c with mem := c.mem.put (wordAt (c.get rd) n) [c.get rn] }

/-- `stm rn, {..}`. -/
def stm (rn : Reg) (regs : List Reg) (c : Cpu) : Cpu :=
  { c with mem := c.mem.put (c.get rn) (regs.map c.get) }

/-- `stm rn!, {..}`. -/
def stmInc (rn : Reg) (regs : List Reg) (c : Cpu) : Cpu :=
  (c.stm rn regs).set rn (wordAt (c.get rn) regs.length)

/-- Registers are loaded one after the other. -/
def load (m : Words) (a : Word) : List Reg → Nat → Cpu → Cpu
  | [], _, c => c
  | rd :: regs, i, c => load m a regs (i + 1) (c.set rd (m (wordAt a i)))

/-- `ldm rn, {..}`. -/
def ldm (rn : Reg) (regs : List Reg) (c : Cpu) : Cpu := load c.mem (c.get rn) regs 0 c

/-- `ldm rn!, {..}`. -/
def ldmInc (rn : Reg) (regs : List Reg) (c : Cpu) : Cpu :=
  load c.mem (c.get rn) regs 0 (c.set rn (wordAt (c.get rn) regs.length))

/-- `push {..}`. -/
def push (regs : List Reg) (c : Cpu) : Cpu :=
  let a := c.get .sp - BitVec.ofNat 32 (4 * regs.length)
  { c with mem := c.mem.put a (regs.map c.get) }.set .sp a

/-- `pop {..}`. -/
def pop (regs : List Reg) (c : Cpu) : Cpu := c.ldmInc .sp regs

/-- `srsdb sp!, #CPSR_MODE_MON`. -/
def srsdb (c : Cpu) : Cpu :=
  let a := c.monSp - 8
  { c with mem := c.mem.put a [c.lr c.mode, c.spsr c.mode], monSp := a }

/-- `rfefd sp!`. -/
def rfefd (c : Cpu) : Cpu :=
  let a := c.get .sp
  { c.set .sp (wordAt a 2) with pc := c.mem (wordAt a 0), cpsr := c.mem (wordAt a 1) }

/-- `SCR_NS | SCR_FIQ | SCR_EA` (`arm32.h:56-59`). -/
def scrNsFiqEa : Word := 0x1 ||| 0x4 ||| 0x8

/-- `bic r, r, #(SCR_NS | SCR_FIQ | SCR_EA)` between `read_scr r` and `write_scr r`. -/
def scrSecure (n : Nat) (c : Cpu) : Cpu :=
  { c with scr := c.scr &&& ~~~scrNsFiqEa }.set (.r n) (c.scr &&& ~~~scrNsFiqEa)

/-- `orr r, r, #(SCR_NS | SCR_FIQ | SCR_EA)` between `read_scr r` and `write_scr r`. -/
def scrNormal (n : Nat) (c : Cpu) : Cpu :=
  { c with scr := c.scr ||| scrNsFiqEa }.set (.r n) (c.scr ||| scrNsFiqEa)

/-- An exception is taken to monitor mode, with the link register that it has there. -/
def take (lr : Word) (c : Cpu) : Cpu :=
  { c with monLr := lr, monSpsr := c.cpsr, cpsr := withMode .mon (c.cpsr ||| 0x1C0) }

end Cpu

end SeCloak
