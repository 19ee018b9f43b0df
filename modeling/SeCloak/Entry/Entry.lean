import SeCloak.Drivers.GpioKeysProps
import SeCloak.Entry.Display

/-!
# The cloak entry (`entry.c:161-317`)

The non-secure world asks for new settings with `CLOAK_SET`; the kernel shows them on a screen
that only it can write and waits for a key. If the user allows them, all eight classes are
enabled and then the ones that are not allowed are disabled again.
-/

namespace SeCloak
open Misc

/-- `struct thread_smc_args` (`thread.h:68-77`). -/
structure SmcArgs where
  a0 : Word
  a1 : Word
  a2 : Word := 0
  a3 : Word := 0
  a4 : Word := 0
  a5 : Word := 0
  a6 : Word := 0
  a7 : Word := 0
  deriving DecidableEq

/-- `OPTEE_SMC_STD_CALL_VAL` (`optee_smc.h:56-64`): a 32-bit call owned by the trusted OS. -/
def opteeSmcStdCallVal (funcNum : Nat) : Word := BitVec.ofNat 32 (50 * 2 ^ 24 + funcNum)

/-- `OPTEE_SMC_CLOAK_SET` and `OPTEE_SMC_CLOAK_GET` (`entry.h:16-34`). -/
def opteeSmcCloakSet : Word := opteeSmcStdCallVal 99
def opteeSmcCloakGet : Word := opteeSmcStdCallVal 100

/-- `OPTEE_SMC_RETURN_*` (`optee_smc.h:84-89`). -/
def opteeSmcReturnOk : Word := 0x0
def opteeSmcReturnEbusy : Word := 0x2
def opteeSmcReturnEbadcmd : Word := 0x5

/-! ## Lock -/

/-- `cpu_spin_trylock` (`spinlock.h:68-77`, `spin_lock_a32.S`): whether the lock was taken. -/
def cpuSpinTrylock : Kernel Bool := do
  let s ← Code.get
  if s.cloak.lock = 0 then do
    Code.modify fun s => { s with cloak := { s.cloak with lock := 1 } }
    pure true
  else pure false

/-- The store of `cpu_spin_unlock`: the lock is free afterwards, whoever held it. -/
def Sys.unlocked (s : Sys) : Sys := { s with cloak := { s.cloak with lock := 0 } }

/-- `cpu_spin_unlock` (`spinlock.h:79-84`). `lockedCount` is the number of spin locks that the
core took, which `spinlock_count_decr` (`spin_lock_debug.c:40-46`) asserts to be positive. -/
def cpuSpinUnlock (env : Env) (lockedCount : Nat) : Kernel Unit := do
  Code.modify Sys.unlocked
  kassert env (0 < lockedCount)

/-! ## `CLOAK_SET` -/

/-- The loop that waits for the confirmation (`entry.c:250`), with the codes of the keys that are
pressed meanwhile. -/
def cloakWait : List Word → Kernel Unit
  | [] => Code.throw .waiting
  | code :: codes => do
    let _ ← gpioKeysHandler code
    let s ← Code.get
    if s.cloak.confirmStatus = .none then cloakWait codes else pure ()

/-- Apply the settings (`entry.c:264-271`): enable all classes, then disable the ones that are
not allowed. -/
def cloakApply (env : Env) (t : DeviceTable) (classes : List (CString × Bool)) : Kernel Unit := do
  Code.forEach (fun c => dtEnableClass env t c.1 true) classes
  Code.forEach (fun c => Code.runIf (c.2 = false) (dtEnableClass env t c.1 false)) classes

/-- The answer of the user (`entry.c:252-280`). -/
def cloakAnswered (env : Env) (t : DeviceTable) (fb : FbInfo) (a1 : Word)
    (classes : List (CString × Bool)) : Kernel Unit := do
  let s ← Code.get
  if s.cloak.confirmStatus = .allow then do
    cloakApply env t classes
    Code.modify fun s => { s with cloak := { s.cloak with prevSettings := a1 } }
    fbClear fb 0x00 0xFF 0x00
  else fbClear fb 0xFF 0x00 0x00

/-- The dialog, once framebuffer and keys are acquired (`entry.c:217-282`). -/
def cloakDialog (env : Env) (t : DeviceTable) (presses : List Word) (fb : FbInfo) (a1 : Word) :
    Kernel Unit := do
  fbBlitAll env fb displayStatic
  let classes ← cloakBlitClasses env fb a1 cloakClasses
  cloakBlitRest env fb a1
  Code.modify fun s => { s with cloak := { s.cloak with confirmStatus := .none } }
  cloakWait presses
  cloakAnswered env t fb a1 classes
  gpioKeysRelease .cloak

/-- `cloak_entry_set` between lock and unlock (`entry.c:204-285`): the error to return. -/
def cloakSetBody (env : Env) (t : DeviceTable) (presses : List Word) (a1 : Word) : Kernel Word := do
  let fb ← fbAcquire env 0xFF 0xFF 0xFF
  match fb with
  | none => pure opteeSmcReturnEbadcmd
  | some fb => do
    let ok ← gpioKeysAcquire env .cloak
    Code.runIf (ok = true) (cloakDialog env t presses fb a1)
    fbRelease env fb
    pure (if ok then opteeSmcReturnOk else opteeSmcReturnEbadcmd)

/-- `cloak_entry_set` (`entry.c:195-290`). -/
def cloakEntrySet (env : Env) (t : DeviceTable) (presses : List Word) (args : SmcArgs) :
    Kernel SmcArgs := do
  let locked ← cpuSpinTrylock
  if locked then do
    let error ← cloakSetBody env t presses args.a1
    cpuSpinUnlock env 1
    pure { args with a0 := error }
  else do
    -- `goto err_lock`
    cpuSpinUnlock env 0
    pure { args with a0 := opteeSmcReturnEbusy }

/-! ## `CLOAK_GET` and dispatch -/

/-- `cloak_entry_get` between lock and unlock (`entry.c:301`). -/
def cloakGetBody (args : SmcArgs) : Kernel SmcArgs := do
  let s ← Code.get
  pure { args with a1 := s.cloak.prevSettings }

/-- `cloak_entry_get` (`entry.c:292-306`). -/
def cloakEntryGet (env : Env) (args : SmcArgs) : Kernel SmcArgs := do
  let locked ← cpuSpinTrylock
  if locked then do
    let args ← cloakGetBody args
    cpuSpinUnlock env 1
    pure { args with a0 := opteeSmcReturnOk }
  else do
    -- `goto err_lock`
    cpuSpinUnlock env 0
    pure { args with a0 := opteeSmcReturnEbusy }

/-- `cloak_entry` (`entry.c:308-317`); the second test is on `a1`. -/
def cloakEntry (env : Env) (t : DeviceTable) (presses : List Word) (args : SmcArgs) :
    Kernel SmcArgs :=
  if args.a0 = opteeSmcCloakSet then cloakEntrySet env t presses args
  else if args.a1 = opteeSmcCloakGet then cloakEntryGet env args
  else pure { args with a0 := opteeSmcReturnEbadcmd }

end SeCloak
