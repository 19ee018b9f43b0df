import SeCloak.Emulation.Bus

/-!
# The emulator (`emulation.c`)

A data abort of the non-secure world at a device that is only accessible to the secure world is
emulated: the instruction is read and decoded, every region that covers the address is asked, and
the access is made on behalf of the non-secure world. No region means no objection.
-/

namespace SeCloak
open Misc

/-! ## Regions -/

/-- The test of `emu_check` (`emulation.c:56`), in 32-bit arithmetic. -/
def Region.covers (r : Region) (address : Word) : Prop :=
  r.base ≤ address ∧ address ≤ r.base + r.size

instance (r : Region) (address : Word) : Decidable (r.covers address) :=
  inferInstanceAs (Decidable (_ ∧ _))

/-- `r->check(r, address, state, value)`: the verdict and the value it leaves. -/
def Region.runCheck (r : Region) (address : Word) (state : EmuState) (value : Word) :
    Kernel (Bool × Word) :=
  match r.check with
  | .allowAll => pure (true, value)
  | .denyAll => pure (false, value)
  | .gpio => gpioEmuCheck r address state value
  | .fb => pure (fbEmuCheck r address state, value)

/-- The loop of `emu_check`: every region that covers the address is asked, also after one of
them refused. -/
def emuCheckFrom (address : Word) (state : EmuState) : List Region → Word → Kernel (Bool × Word)
  | [], value => pure (true, value)
  | r :: rs, value =>
    if r.covers address then do
      let (ok, value) ← r.runCheck address state value
      let (rest, value) ← emuCheckFrom address state rs value
      pure (ok && rest, value)
    else emuCheckFrom address state rs value

/-- `emu_check` (`emulation.c:51-62`). -/
def emuCheck (address : Word) (state : EmuState) (value : Word) : Kernel (Bool × Word) := do
  let s ← Code.get
  emuCheckFrom address state s.regions value

/-! ## Loads and stores -/

/-- The sign extension of `emu_handle_load` (`emulation.c:104-114`). -/
def emuSignExtend (value : Word) (size : Nat) (sign : Bool) : Word :=
  if sign then
    if size = 1 then if value &&& 0x80 ≠ 0 then value ||| 0xFFFFFF00 else value
    else if size = 2 then if value &&& 0x8000 ≠ 0 then value ||| 0xFFFF0000 else value
    else value
  else value

/-- `emu_handle_load` (`emulation.c:101-119`): the new content of the register. -/
def emuHandleLoad (env : Env) (a : Access) (sign : Bool) : Kernel Word := do
  let (ok, _) ← emuCheck a.pa .readBefore 0
  if ok then do
    let value ← memRead env a
    let (_, value) ← emuCheck a.pa .readAfter (emuSignExtend value a.size sign)
    pure value
  else pure 0

/-- `emu_handle_store` (`emulation.c:121-125`): the new content of the register. -/
def emuHandleStore (env : Env) (a : Access) (reg : Word) : Kernel Word := do
  let (ok, value) ← emuCheck a.pa .write reg
  Code.runIf (ok = true) (memWrite env a value)
  pure value

/-! ## Instructions -/

/-- The registers of `struct sm_nsec_ctx` (`sm.h:59-82`) that the emulator uses. -/
structure NsecCtx where
  r : Nat → Word
  lr : Word
  monLr : Word

/-- The register that an instruction names (`emulation.c:148-160`). -/
inductive Rt where
  | r (n : Nat)
  | lr
  deriving DecidableEq

def NsecCtx.get (ctx : NsecCtx) : Rt → Word
  | .r n => ctx.r n
  | .lr => ctx.lr

def NsecCtx.set (ctx : NsecCtx) (rt : Rt) (v : Word) : NsecCtx :=
  match rt with
  | .r n => { ctx with r := Function.update ctx.r n v }
  | .lr => { ctx with lr := v }

/-- `instr_rt` (`emulation.c:148-160`); 13 and 15 have no register. -/
def emuRt (instr : Word) : Option Rt :=
  let rt := ((instr >>> 12) &&& 0xF).toNat
  if rt ≤ 12 then some (.r rt) else if rt = 14 then some .lr else none

/-- An instruction the emulator handles. -/
inductive EmuOp where
  | load (size : Nat) (sign : Bool)
  | store (size : Nat)
  deriving DecidableEq

/-- The dispatch on the instruction type (`emulation.c:162-181`). -/
def emuDecode (instr : Word) : Option EmuOp :=
  let type := (instr >>> 25) &&& 0x7
  if type &&& 0x6 = 0x2 then
    let size := if instr.getLsbD 22 then 1 else 4
    if instr.getLsbD 20 then some (.load size false) else some (.store size)
  else if type = 0 then
    let size := if instr.getLsbD 5 then 2 else 1
    if instr.getLsbD 20 then some (.load size (instr.getLsbD 6)) else some (.store size)
  else none

def EmuOp.size : EmuOp → Nat
  | .load size _ => size
  | .store size => size

/-- The range checks of `emu_handle` (`emulation.c:134-144`). -/
def Window.contains (w : Window) (pa : Word) : Prop := w.pstart ≤ pa ∧ pa < w.pstart + w.size

instance (w : Window) (pa : Word) : Decidable (w.contains pa) :=
  inferInstanceAs (Decidable (_ ∧ _))

/-- The access of `size` bytes at a physical address of the window. -/
def Window.access (w : Window) (pa : Word) (size : Nat) : Access :=
  ⟨w.vstart + (pa - w.pstart), pa, size⟩

/-- The access that a decoded instruction makes, and the register it leaves. -/
def emuExecute (env : Env) (op : EmuOp) (pa : Word) (reg : Word) : Kernel Word :=
  match op with
  | .load size sign => emuHandleLoad env (env.data.access pa size) sign
  | .store size => emuHandleStore env (env.data.access pa size) reg

/-- `emu_handle` (`emulation.c:127-182`): the context it returns to. -/
def emuHandle (env : Env) (ctx : NsecCtx) (status dataPaddr instrPaddr : Word) :
    Kernel NsecCtx :=
  if status &&& 0x40F ≠ 0x008 then pure { ctx with monLr := ctx.monLr - 4 }
  else if ¬ env.data.contains dataPaddr then pure ctx
  else if ¬ env.instr.contains instrPaddr then pure ctx
  else do
    let instr ← memFetch env (env.instr.access instrPaddr 4)
    match emuRt instr, emuDecode instr with
    | some rt, some op =>
      let value ← emuExecute env op dataPaddr (ctx.get rt)
      pure (ctx.set rt value)
    | _, _ => Code.throw .panic

end SeCloak
