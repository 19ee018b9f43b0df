import SeCloak.Emulation.Bus

/-!
# Loads and stores of the architecture

What the A32 load and store instructions do that the emulator may meet: the single data transfers
and the extra loads and stores, each with immediate or register offset, pre-indexed, post-indexed
or without writeback. The registers are those of the non-secure world, with a stack pointer and a
link register for each mode and separate `R8` to `R12` in FIQ mode.
-/

namespace SeCloak
open Misc

/-! ## Registers -/

/-- The modes of the non-secure world. -/
inductive NsMode where
  | usr | fiq | irq | svc | abt | und | sys
  deriving DecidableEq

/-- System mode has the registers of user mode. -/
def NsMode.bank : NsMode → NsMode
  | .sys => .usr
  | m => m

/-- The registers of the non-secure world, with the address of the current instruction. -/
structure NsRegs where
  r : Nat → Word
  rFiq : Nat → Word
  sp : NsMode → Word
  lr : NsMode → Word
  carry : Bool
  pc : Word

namespace NsRegs

def get (regs : NsRegs) (m : NsMode) (n : Nat) : Word :=
  if n = 15 then regs.pc + 8
  else if n = 14 then regs.lr m.bank
  else if n = 13 then regs.sp m.bank
  else if 8 ≤ n ∧ m = .fiq then regs.rFiq n
  else regs.r n

def set (regs : NsRegs) (m : NsMode) (n : Nat) (v : Word) : NsRegs :=
  if n = 15 then { regs with pc := v }
  else if n = 14 then { regs with lr := Function.update regs.lr m.bank v }
  else if n = 13 then { regs with sp := Function.update regs.sp m.bank v }
  else if 8 ≤ n ∧ m = .fiq then { regs with rFiq := Function.update regs.rFiq n v }
  else { regs with r := Function.update regs.r n v }

theorem get_set {regs : NsRegs} {m : NsMode} {n k : Nat} {v : Word} (hn : n < 15) (hk : k < 15) :
    (regs.set m k v).get m n = if n = k then v else regs.get m n := by
  unfold get set
  have hn' : n ≠ 15 := by omega
  have hk' : k ≠ 15 := by omega
  rw [if_neg hn', if_neg hk', if_neg hn']
  by_cases hnk : n = k
  · subst hnk
    rw [if_pos rfl]
    split_ifs <;> simp
  · rw [if_neg hnk]
    split_ifs <;> first | rfl | omega | simp [hnk]

/-- Writing back what is there changes nothing. -/
theorem set_get (regs : NsRegs) (m : NsMode) {n : Nat} (hn : n < 15) :
    regs.set m n (regs.get m n) = regs := by
  unfold get set
  have hn' : n ≠ 15 := by omega
  rw [if_neg hn', if_neg hn']
  split_ifs <;> simp

end NsRegs

/-! ## Encodings -/

/-- The fields `Rn`, `Rt` and `Rm`. -/
def armRn (i : Word) : Nat := ((i >>> 16) &&& 0xF).toNat
def armRt (i : Word) : Nat := ((i >>> 12) &&& 0xF).toNat
def armRm (i : Word) : Nat := (i &&& 0xF).toNat

/-- The bits `P`, `U` and `W`. -/
def armP (i : Word) : Bool := i.getLsbD 24
def armU (i : Word) : Bool := i.getLsbD 23
def armW (i : Word) : Bool := i.getLsbD 21

/-- Bits 27 to 25. -/
def armType (i : Word) : Word := (i >>> 25) &&& 0x7

inductive ArmOp where
  | load (size : Nat) (sign : Bool)
  | store (size : Nat)
  /-- `LDRD` and `STRD` -/
  | loadDual
  | storeDual
  deriving DecidableEq

/-- The single data transfers, then the extra loads and stores. Unprivileged accesses (post-indexed
with `W` set), the unconditional space and everything else are not among them. -/
def armOp (i : Word) : Option ArmOp :=
  if i >>> 28 = 0xF ∨ (armP i = false ∧ armW i = true) then none
  else if armType i = 2 ∨ (armType i = 3 ∧ i.getLsbD 4 = false) then
    let size := if i.getLsbD 22 then 1 else 4
    some (if i.getLsbD 20 then .load size false else .store size)
  else if armType i = 0 ∧ i.getLsbD 7 = true ∧ i.getLsbD 4 = true then
    match i.getLsbD 20, i.getLsbD 6, i.getLsbD 5 with
    | false, false, true => some (.store 2)
    | false, true, false => some .loadDual
    | false, true, true => some .storeDual
    | true, false, true => some (.load 2 false)
    | true, true, false => some (.load 1 true)
    | true, true, true => some (.load 2 true)
    | _, false, false => none
  else none

/-- Pre-indexed or post-indexed. -/
def armWback (i : Word) : Bool := !armP i || armW i

/-- The shifts of a register offset: `LSL`, `LSR`, `ASR`, and `ROR` or `RRX`. -/
def armShift (v : Word) (kind imm : Nat) (carry : Bool) : Word :=
  match kind with
  | 0 => v <<< imm
  | 1 => v >>> (if imm = 0 then 32 else imm)
  | 2 => v.sshiftRight (if imm = 0 then 32 else imm)
  | _ => if imm = 0 then (v >>> 1) ||| (if carry then BitVec.twoPow 32 31 else 0) else v.rotateRight imm

/-- The offset of the address. -/
def armOffset (regs : NsRegs) (m : NsMode) (i : Word) : Word :=
  if armType i = 2 then i &&& 0xFFF
  else if armType i = 3 then
    armShift (regs.get m (armRm i)) ((i >>> 5) &&& 0x3).toNat ((i >>> 7) &&& 0x1F).toNat regs.carry
  else if i.getLsbD 22 then ((i >>> 4) &&& 0xF0) ||| (i &&& 0xF)
  else regs.get m (armRm i)

/-- The base register after writeback. -/
def armBase (regs : NsRegs) (m : NsMode) (i : Word) : Word :=
  let base := regs.get m (armRn i)
  if armU i then base + armOffset regs m i else base - armOffset regs m i

/-- The encoding is one the architecture defines the effect of. -/
def ArmDefined (i : Word) (op : ArmOp) : Prop :=
  (armWback i = true → armRn i ≠ 15 ∧ armRn i ≠ armRt i) ∧
    (armType i = 3 ∨ (armType i = 0 ∧ i.getLsbD 22 = false) → armRm i ≠ 15) ∧
    (op = .loadDual ∨ op = .storeDual → armRt i % 2 = 0 ∧ armRt i ≠ 14 ∧
      (armWback i = true → armRn i ≠ armRt i + 1)) ∧
    (op = .loadDual → i.getLsbD 22 = false → armRm i ≠ armRt i ∧ armRm i ≠ armRt i + 1)

instance (i : Word) (op : ArmOp) : Decidable (ArmDefined i op) := by
  unfold ArmDefined
  infer_instance

/-! ## Effect -/

/-- The `n` bytes at a physical address. -/
def armAccess (pa : Word) (n : Nat) : Access := ⟨pa, pa, n⟩

/-- A value of `size` bytes, extended to a word. -/
def armExtend (v : Word) (size : Nat) (sign : Bool) : Word :=
  if sign then (v.setWidth (8 * size)).signExtend 32 else (v.setWidth (8 * size)).setWidth 32

/-- The transfer between `Rt` and the memory at `pa`. -/
def armTransfer (env : Env) (m : NsMode) (i : Word) (op : ArmOp) (pa : Word) (regs : NsRegs)
    (s : Sys) : NsRegs × Sys :=
  let rt := armRt i
  match op with
  | .load size sign =>
    (regs.set m rt (armExtend (s.load env (armAccess pa size)) size sign), s)
  | .store size => (regs, s.store env (armAccess pa size) (regs.get m rt))
  | .loadDual =>
    ((regs.set m rt (s.load env (armAccess pa 4))).set m (rt + 1)
      (s.load env (armAccess (pa + 4) 4)), s)
  | .storeDual =>
    (regs, (s.store env (armAccess pa 4) (regs.get m rt)).store env (armAccess (pa + 4) 4)
      (regs.get m (rt + 1)))

/-- The instruction at the address: the transfer, the writeback, and on to the next instruction. -/
def armStep (env : Env) (m : NsMode) (i : Word) (op : ArmOp) (pa : Word) (regs : NsRegs) (s : Sys) :
    NsRegs × Sys :=
  let after := armTransfer env m i op pa regs s
  let regs' := if armWback i then after.1.set m (armRn i) (armBase regs m i) else after.1
  ({ regs' with pc := regs.pc + 4 }, after.2)

end SeCloak
