import SeCloak.Emulation.Handle
import SeCloak.Monitor.Cpu

/-!
# The secure monitor (`sm_a32.S`, `sm.c`)

How the monitor leaves one world for the other, on a secure monitor call and on an FIQ while the normal
world runs, and how it serves a data abort of the normal world. `bl` and `bx lr` are left out of the routines: no instruction reads the link
register of monitor mode after a call. What a C function leaves in the registers that it need not
preserve, and on the stack below the context, is `Scratch`.
-/

namespace SeCloak
open Misc

/-! ## `struct sm_ctx` (`sm.h:59-113`), in words -/

/-- `SM_CTX_SEC`. -/
def smCtxSec : Nat := 1

/-- `SM_CTX_NSEC`. -/
def smCtxNsec : Nat := 34

/-- `SM_CTX_SIZE`. -/
def smCtxSize : Nat := 67

/-- `SM_SEC_CTX_R8` and `SM_NSEC_CTX_R8`, behind the registers of the modes. -/
def smCtxR8 : Nat := 17

/-- `SM_NSEC_CTX_LR`. -/
def smCtxLr : Nat := 22

/-- `SM_SEC_CTX_R0` and `SM_NSEC_CTX_R0`. -/
def smCtxR0 : Nat := 23

/-- `SM_SEC_CTX_MON_LR`. -/
def smCtxMonLr : Nat := 31

def smCtxMonSpsr : Nat := 32

/-! ## Entries of the secure world -/

/-- `OPTEE_SMC_CALL_VAL` (`optee_smc.h:56-60`). -/
def opteeSmcCallVal (type convention owner func : Word) : Word :=
  type ||| convention ||| ((owner &&& 0x3F) <<< 24) ||| (func &&& 0xFFFF)

/-- `TEESMC_OPTEED_RETURN_FIQ_DONE` (`teesmc_opteed.h:118-120`). -/
def returnFiqDone : Word := opteeSmcCallVal 0 0x80000000 62 6

/-- `thread_vector_table.std_smc_entry`, with the address of the table. -/
def stdSmcEntry (vectors : Word) : Word := wordAt vectors 0

/-- `thread_vector_table.fast_smc_entry`. -/
def fastSmcEntry (vectors : Word) : Word := wordAt vectors 1

/-- `thread_vector_table + THREAD_VECTOR_TABLE_FIQ_ENTRY`. -/
def fiqEntry (vectors : Word) : Word := wordAt vectors 6

/-- The entry for a call (`sm.c:57-62`); the top bit makes it a fast call. -/
def smcEntry (vectors r0 : Word) : Word :=
  if r0 &&& 0x80000000 ≠ 0 then fastSmcEntry vectors else stdSmcEntry vectors

/-! ## C functions -/

/-- What a C function leaves behind: the registers it need not preserve, and its frames below the
context, within `STACK_TMP_SIZE` (`thread.c:56`). -/
structure Scratch where
  r1 : Word
  r2 : Word
  r3 : Word
  r12 : Word
  stack : List Word
  fits : stack.length ≤ 384

/-- The registers after a C function that returns `v`. -/
def Scratch.regs (x : Scratch) (v : Word) (r : Nat → Word) (n : Nat) : Word :=
  match n with
  | 0 => v
  | 1 => x.r1
  | 2 => x.r2
  | 3 => x.r3
  | 12 => x.r12
  | n => r n

namespace Cpu

/-- A C function returns `v`. -/
def returns (x : Scratch) (v : Word) (c : Cpu) : Cpu :=
  { c with
    r := x.regs v c.r
    mem := c.mem.put (c.monSp - BitVec.ofNat 32 (4 * x.stack.length)) x.stack }

/-- `r0` to `r7`. -/
def low : List Reg := [.r 0, .r 1, .r 2, .r 3, .r 4, .r 5, .r 6, .r 7]

/-- `r8` to `r12`. -/
def high : List Reg := [.r 8, .r 9, .r 10, .r 11, .r 12]

/-! ## Routines -/

/-- `cps`, `mrs` and `stm` of one mode. -/
def saveMode (m : CpuMode) (c : Cpu) : Cpu :=
  c |>.cps m |>.mrsSpsr (.r 2) |>.stmInc (.r 0) [.r 2, .sp, .lr]

/-- `sm_save_modes_regs` (`sm_a32.S:42-69`). -/
def smSaveModesRegs (c : Cpu) : Cpu :=
  c |>.cps .sys |>.stmInc (.r 0) [.sp, .lr]
    |>.saveMode .irq |>.saveMode .fiq |>.saveMode .svc |>.saveMode .abt |>.saveMode .und
    |>.cps .mon

/-- `cps`, `ldm` and `msr` of one mode. -/
def restoreMode (m : CpuMode) (c : Cpu) : Cpu :=
  c |>.cps m |>.ldmInc (.r 0) [.r 2, .sp, .lr] |>.msrSpsr (.r 2)

/-- `sm_restore_modes_regs` (`sm_a32.S:72-99`). -/
def smRestoreModesRegs (c : Cpu) : Cpu :=
  c |>.cps .sys |>.ldmInc (.r 0) [.sp, .lr]
    |>.restoreMode .irq |>.restoreMode .fiq |>.restoreMode .svc |>.restoreMode .abt
    |>.restoreMode .und |>.cps .mon

/-- `sm_from_nsec` (`sm.c:39-64`): the platform has no handler of its own, and no PSCI. -/
def smFromNsec (vectors : Word) (x : Scratch) (c : Cpu) : Cpu :=
  let ctx := c.get (.r 0)
  let c := c |>.movImm (.r 0) (wordAt ctx smCtxNsec) |>.smSaveModesRegs
    |>.movImm (.r 0) (wordAt ctx smCtxSec) |>.smRestoreModesRegs
  let regs := c.mem.get (wordAt ctx (smCtxNsec + smCtxR0)) 8
  let mem := c.mem.put (wordAt ctx (smCtxSec + smCtxR0)) regs
  let entry := smcEntry vectors (mem (wordAt ctx (smCtxSec + smCtxR0)))
  { c with mem := mem.put (wordAt ctx (smCtxSec + smCtxMonLr)) [entry] }.returns x 1

/-- `.sm_exit` (`sm_a32.S:185-187`). -/
def smExit (c : Cpu) : Cpu := c |>.pop low |>.rfefd

/-- `.sm_ret_to_nsec` (`sm_a32.S:146-159`). -/
def smRetToNsec (c : Cpu) : Cpu :=
  c |>.addWords (.r 0) .sp (smCtxNsec + smCtxR8) |>.ldm (.r 0) high |>.scrNormal 0
    |>.addWords .sp .sp (smCtxNsec + smCtxR0) |>.smExit

/-- `.smc_from_nsec` (`sm_a32.S:161-183`). -/
def smcFromNsec (vectors : Word) (x : Scratch) (c : Cpu) : Cpu :=
  let c := c |>.sub .sp .sp (BitVec.ofNat 32 (4 * (smCtxNsec + smCtxR0))) |>.scrSecure 1
    |>.addWords (.r 0) .sp (smCtxNsec + smCtxR8) |>.stm (.r 0) high
    |>.mov (.r 0) .sp |>.smFromNsec vectors x
  if c.get (.r 0) = 0 then c.smRetToNsec
  else c |>.addWords .sp .sp (smCtxSec + smCtxR0) |>.smExit

/-- The results of a call are put into the context of the normal world, unless it ends an FIQ
(`sm_a32.S:130-140`). -/
def smcResults (c : Cpu) : Cpu :=
  if c.get (.r 0) = c.get (.r 9) then c
  else c |>.addWords (.r 8) .sp (smCtxNsec + smCtxR0) |>.stm (.r 8) [.r 1, .r 2, .r 3, .r 4]

/-- `sm_smc_entry` from the secure world (`sm_a32.S:119-144`). -/
def smcFromSec (c : Cpu) : Cpu :=
  c |>.sub .sp .sp (BitVec.ofNat 32 (4 * (smCtxSec + smCtxR0)))
    |>.addWords (.r 0) .sp smCtxSec |>.smSaveModesRegs
    |>.addWords (.r 8) .sp (smCtxSec + smCtxR0) |>.ldm (.r 8) [.r 0, .r 1, .r 2, .r 3, .r 4]
    |>.movImm (.r 9) returnFiqDone |>.smcResults
    |>.addWords (.r 0) .sp smCtxNsec |>.smRestoreModesRegs |>.smRetToNsec

/-- `sm_smc_entry` (`sm_a32.S:108-188`). -/
def smSmcEntry (vectors : Word) (x : Scratch) (c : Cpu) : Cpu :=
  let c := c |>.srsdb |>.push low |>.movImm (.r 1) c.scr
  if c.get (.r 1) &&& 0x1 ≠ 0 then c.smcFromNsec vectors x else c.smcFromSec

/-- `sm_fiq_entry` (`sm_a32.S:197-234`). -/
def smFiqEntry (vectors : Word) (c : Cpu) : Cpu :=
  c |>.sub .lr .lr 4 |>.srsdb |>.push low
    |>.sub .sp .sp (BitVec.ofNat 32 (4 * (smCtxNsec + smCtxR0)))
    |>.scrSecure 1 |>.addWords (.r 0) .sp smCtxNsec |>.smSaveModesRegs |>.stmInc (.r 0) high
    |>.movImm (.r 0) (fiqEntry vectors) |>.str (.r 0) .sp (smCtxSec + smCtxMonLr)
    |>.addWords (.r 0) .sp smCtxSec |>.smRestoreModesRegs
    |>.addWords .sp .sp (smCtxSec + smCtxMonLr) |>.rfefd

/-! ## Data aborts -/

/-- What coprocessor 15 has for an abort: `DFSR`, `DFAR`, and the physical address register after a
translation for the normal world. -/
structure Cp15 where
  dfsr : Word
  dfar : Word
  par : Word → Word

/-- `mcr p15, 0, rn, c7, c8, 4`, then `mrc p15, 0, rd, c7, c4, 0`. -/
def translate (p : Cp15) (rd rn : Reg) (c : Cpu) : Cpu := c.set rd (p.par (c.get rn))

/-- The context of the normal world that `sm_da_entry` saves (`sm_a32.S:237-264`). -/
def daSave (c : Cpu) : Cpu :=
  c |>.sub .lr .lr 4 |>.srsdb |>.push low |>.scrSecure 1
    |>.cps .svc |>.mov (.r 0) .lr |>.cps .mon |>.push [.r 0]
    |>.sub .sp .sp (BitVec.ofNat 32 (4 * (smCtxNsec + smCtxLr)))
    |>.addWords (.r 0) .sp (smCtxNsec + smCtxR8) |>.stm (.r 0) high

/-- The arguments of `emu_handle` (`sm_a32.S:266-291`). -/
def daArgs (p : Cp15) (c : Cpu) : Cpu :=
  c |>.movImm (.r 6) 0xFFF |>.mov (.r 0) .sp
    |>.movImm (.r 1) p.dfsr
    |>.movImm (.r 2) p.dfar |>.and (.r 3) (.r 2) (.r 6) |>.bic (.r 2) (.r 2) (.r 6)
    |>.translate p (.r 4) (.r 2) |>.bic (.r 4) (.r 4) (.r 6) |>.orr (.r 2) (.r 3) (.r 4)
    |>.sub (.r 3) .lr 4 |>.and (.r 4) (.r 3) (.r 6) |>.bic (.r 3) (.r 3) (.r 6)
    |>.translate p (.r 5) (.r 3) |>.bic (.r 5) (.r 5) (.r 6) |>.orr (.r 3) (.r 4) (.r 5)

/-- The fields of `sm_ctx.nsec` that the emulator uses. -/
def nsecLoad (m : Words) (ctx : Word) : NsecCtx where
  r n :=
    if n < 8 then m (wordAt ctx (smCtxNsec + smCtxR0 + n))
    else if n < 13 then m (wordAt ctx (smCtxNsec + smCtxR8 + (n - 8)))
    else 0
  lr := m (wordAt ctx (smCtxNsec + smCtxLr))
  monLr := m (wordAt ctx (smCtxNsec + smCtxMonLr))

def nsecStore (m : Words) (ctx : Word) (n : NsecCtx) : Words :=
  (((m.put (wordAt ctx (smCtxNsec + smCtxR8)) ((List.range' 8 5).map n.r)).put
    (wordAt ctx (smCtxNsec + smCtxLr)) [n.lr]).put
    (wordAt ctx (smCtxNsec + smCtxR0)) ((List.range' 0 8).map n.r)).put
    (wordAt ctx (smCtxNsec + smCtxMonLr)) [n.monLr]

/-- What `sm_da_entry` does after the call (`sm_a32.S:296-317`). -/
def daLeave (c : Cpu) : Cpu :=
  c |>.addWords (.r 0) .sp (smCtxNsec + smCtxR8) |>.ldm (.r 0) high
    |>.addWords .sp .sp (smCtxNsec + smCtxLr)
    |>.pop [.r 0] |>.cps .svc |>.mov .lr (.r 0) |>.cps .mon
    |>.scrNormal 0 |>.smExit

/-- `sm_da_entry` (`sm_a32.S:236-318`). -/
def smDaEntry (env : Env) (p : Cp15) (x : Scratch) (v : Word) (c : Cpu) : Kernel Cpu := do
  let c := c |>.daSave |>.daArgs p
  let ctx := c.get (.r 0)
  let n ← emuHandle env (nsecLoad c.mem ctx) (c.get (.r 1)) (c.get (.r 2)) (c.get (.r 3))
  pure ({ c with mem := nsecStore c.mem ctx n }.returns x v).daLeave

/-! ## Initialization -/

/-- `sm_init` (`sm_a32.S:333-346`): the stack pointer of monitor mode, just beyond `sm_ctx.sec`. -/
def smInit (c : Cpu) : Cpu :=
  let c' := c |>.movImm (.r 1) c.cpsr |>.cps .mon
    |>.sub .sp (.r 0) (BitVec.ofNat 32 (4 * (smCtxSize - smCtxNsec)))
  { c' with cpsr := c'.get (.r 1) }

/-- `init_sec_mon` (`generic_boot.c:105-118`): where the normal world starts, with `CPSR_MODE_SVC |
CPSR_I`. -/
def initSecMon (entry : Word) (c : Cpu) : Cpu :=
  let mem := c.mem.put (wordAt c.monSp smCtxMonLr) [entry]
  { c with mem := mem.put (wordAt c.monSp smCtxMonSpsr) [CpuMode.svc.bits ||| 0x80] }

end Cpu

end SeCloak
