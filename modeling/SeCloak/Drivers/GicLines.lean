import SeCloak.Drivers.Gic

/-!
# One line of the distributor (`gic.c:274-396`)

Four families of registers hold what the distributor knows of an interrupt: a bit of `IGROUPR`, a
bit behind `ISENABLER` and `ICENABLER`, a byte of `IPRIORITYR`, and a byte of a word of `ITARGETSR`.
Each operation of the driver names one interrupt, and changes nothing that belongs to another.
-/

namespace SeCloak
open Misc

/-! ## Registers of a line -/

namespace Gic

/-- `gic_it_get_target` (`gic.c:455-467`). -/
def target (g : Gic) (it : Nat) : Word :=
  let shift := (it % 4) * 8
  (g.itargetsr (it / 4) &&& (0xff#32 <<< shift)) >>> shift

/-- What the distributor holds for one interrupt. -/
structure LineRegs where
  group : Bool
  enabled : Bool
  priority : Byte
  target : Word
  deriving DecidableEq

def line (g : Gic) (it : Nat) : LineRegs :=
  ⟨g.group it, g.enabled it, g.ipriorityr it, g.target it⟩

theorem getLsbD_byteMask (i : Nat) : (0xff#32).getLsbD i = decide (i < 8) := by
  have hmask : 0xff#32 = (1#32 <<< 8) - 1 := by decide
  rw [hmask]
  exact getLsbD_lowMask (by decide) i

/-- The bits of a target are a byte of its word. -/
theorem getLsbD_target (g : Gic) (it k : Nat) :
    (g.target it).getLsbD k = ((g.itargetsr (it / 4)).getLsbD ((it % 4) * 8 + k) && decide (k < 8)) := by
  unfold target
  rw [BitVec.getLsbD_ushiftRight, BitVec.getLsbD_and, BitVec.getLsbD_shiftLeft, getLsbD_byteMask]
  by_cases hk : k < 8
  · have hlt : (it % 4) * 8 + k < 32 := by omega
    simp [hk, hlt]
  · simp [hk]

/-- A write of a byte of a word leaves the bits outside of it. -/
theorem getLsbD_putByte {r v : Word} {shift i : Nat} (hv : ∀ k ≥ 8, v.getLsbD k = false)
    (hout : i < shift ∨ shift + 8 ≤ i) :
    ((r &&& ~~~(0xff#32 <<< shift)) ||| (v <<< shift)).getLsbD i = r.getLsbD i := by
  by_cases hi : i < 32
  · rw [BitVec.getLsbD_or, BitVec.getLsbD_and, BitVec.getLsbD_not, BitVec.getLsbD_shiftLeft,
      BitVec.getLsbD_shiftLeft, getLsbD_byteMask]
    rcases hout with hlt | hge
    · simp [hi, hlt]
    · have hfar : ¬ i - shift < 8 := by omega
      simp [hi, hfar, hv (i - shift) (by omega)]
  · simp [BitVec.getLsbD_of_ge, Nat.not_lt.mp hi]

end Gic

/-! ## Operations on a line -/

/-- `gic_it_add` (`gic.c:274-286`). -/
def gicItAdd (it : Nat) : Kernel Unit := modifyGic (·.itAdd it)

/-- `gic_it_set_cpu_mask` (`gic.c:288-310`). -/
def gicItSetCpuMask (env : Env) (it : Nat) (cpuMask : Byte) : Kernel Unit := do
  gicAssertGroup0 env it
  modifyGic (·.itSetCpuMask it cpuMask)

/-- `gic_it_enable` (`gic.c:326-345`). -/
def gicItEnable (env : Env) (it : Nat) : Kernel Unit := do
  gicAssertGroup0 env it
  modifyGic (·.itEnable it)

/-- `gic_it_disable` (`gic.c:347-357`). -/
def gicItDisable (it : Nat) : Kernel Unit := modifyGic (·.itDisable it)

/-- `gic_it_unsecure` (`gic.c:379-396`). -/
def gicItUnsecure (it : Nat) : Kernel Unit := modifyGic (·.itUnsecure it)

/-- The operations of the driver on one interrupt. -/
inductive GicOp where
  | add
  | enable
  | disable
  | secure
  | unsecure
  | setPrio (prio : Byte)
  | setCpuMask (cpuMask : Byte)

namespace GicOp

def run (env : Env) (it : Nat) : GicOp → Kernel Unit
  | .add => gicItAdd it
  | .enable => gicItEnable env it
  | .disable => gicItDisable it
  | .secure => gicItSecure env it
  | .unsecure => gicItUnsecure it
  | .setPrio prio => gicItSetPrio env it prio
  | .setCpuMask cpuMask => gicItSetCpuMask env it cpuMask

/-- The operation asserts that the interrupt is in group 0. -/
def wantsGroup0 : GicOp → Bool
  | .enable | .setPrio _ | .setCpuMask _ => true
  | _ => false

/-- What the operation does to the distributor. -/
def apply (g : Gic) (it : Nat) : GicOp → Gic
  | .add => g.itAdd it
  | .enable => g.itEnable it
  | .disable => g.itDisable it
  | .secure => g.itSecure it
  | .unsecure => g.itUnsecure it
  | .setPrio prio => g.itSetPrio it prio
  | .setCpuMask cpuMask => g.itSetCpuMask it cpuMask

end GicOp

/-! ## The other lines -/

namespace Gic

variable (g : Gic) {it j : Nat}

theorem line_writeIsenabler (hne : j ≠ it) : (g.writeIsenabler (it / 32) (bit it)).line j = g.line j := by
  have hen := enabled_writeIsenabler g it j
  simp only [hne, decide_false, Bool.or_false] at hen
  simp [line, hen]
  exact ⟨rfl, rfl⟩

theorem line_writeIcenabler (hne : j ≠ it) : (g.writeIcenabler (it / 32) (bit it)).line j = g.line j := by
  have hen := enabled_writeIcenabler g it j
  simp only [hne, decide_false, Bool.not_false, Bool.and_true] at hen
  simp [line, hen]
  exact ⟨rfl, rfl⟩

/-- Pending bits are not part of a line. -/
theorem line_writeIcpendr (n : Nat) (v : Word) : (g.writeIcpendr n v).line j = g.line j := rfl

theorem line_writeIgroupr_and_not (hne : j ≠ it) :
    (g.writeIgroupr (it / 32) (g.igroupr (it / 32) &&& ~~~bit it)).line j = g.line j := by
  have hgroup := group_writeIgroupr_and_not g it j
  simp only [hne, decide_false, Bool.not_false, Bool.and_true] at hgroup
  simp [line, hgroup]
  exact ⟨rfl, rfl⟩

theorem line_writeIgroupr_or (hne : j ≠ it) :
    (g.writeIgroupr (it / 32) (g.igroupr (it / 32) ||| bit it)).line j = g.line j := by
  have hgroup := group_writeIgroupr_or g it j
  simp only [hne, decide_false, Bool.or_false] at hgroup
  simp [line, hgroup]
  exact ⟨rfl, rfl⟩

theorem line_itSetPrio (hne : j ≠ it) (prio : Byte) : (g.itSetPrio it prio).line j = g.line j := by
  have hprio : (g.itSetPrio it prio).ipriorityr j = g.ipriorityr j := Function.update_of_ne hne _ _
  simp [line, hprio]
  rfl

/-- The targets of the interrupts that share a word are different bytes of it. -/
theorem line_itSetCpuMask (hne : j ≠ it) (cpuMask : Byte) :
    (g.itSetCpuMask it cpuMask).line j = g.line j := by
  have htarget : (g.itSetCpuMask it cpuMask).target j = g.target j := by
    apply BitVec.eq_of_getLsbD_eq
    intro k _
    rw [getLsbD_target, getLsbD_target]
    by_cases hk : k < 8
    · congr 1
      by_cases hword : j / 4 = it / 4
      · have hbyte : j % 4 ≠ it % 4 := by omega
        simp only [itSetCpuMask, hword, Function.update_self]
        refine getLsbD_putByte (fun i hi => ?_) (by omega)
        simp [BitVec.getLsbD_of_ge cpuMask i hi]
      · simp [itSetCpuMask, Function.update_of_ne hword]
    · simp [hk]
  simp [line, htarget]
  exact ⟨rfl, rfl⟩

end Gic

/-- No operation changes the registers of another line. -/
theorem GicOp.apply_line (op : GicOp) (g : Gic) {it j : Nat} (hne : j ≠ it) :
    (op.apply g it).line j = g.line j := by
  cases op with
  | add =>
    change (Gic.itAdd g it).line j = _
    unfold Gic.itAdd
    rw [Gic.line_writeIgroupr_and_not _ hne, Gic.line_writeIcpendr, Gic.line_writeIcenabler _ hne]
  | enable =>
    change (Gic.itEnable g it).line j = _
    unfold Gic.itEnable
    split
    · rfl
    · exact g.line_writeIsenabler hne
  | disable => exact g.line_writeIcenabler hne
  | secure =>
    change (Gic.itSecure g it).line j = _
    unfold Gic.itSecure
    split
    · rfl
    · cases g.enabled it
      · exact (Gic.line_itSetPrio _ hne _).trans (g.line_writeIgroupr_and_not hne)
      · simp only [if_true]
        rw [Gic.line_writeIsenabler _ hne, Gic.line_itSetPrio _ hne,
          Gic.line_writeIgroupr_and_not _ hne, Gic.line_writeIcenabler _ hne]
  | unsecure =>
    change (Gic.itUnsecure g it).line j = _
    unfold Gic.itUnsecure
    split
    · rfl
    · cases g.enabled it
      · exact g.line_writeIgroupr_or hne
      · simp only [if_true]
        rw [Gic.line_writeIsenabler _ hne, Gic.line_writeIgroupr_or _ hne,
          Gic.line_writeIcenabler _ hne]
  | setPrio prio => exact g.line_itSetPrio hne prio
  | setCpuMask cpuMask => exact g.line_itSetCpuMask hne cpuMask

/-! ## Runs -/

/-- An operation is stopped by its own assert, or it returns with its effect on the distributor. -/
theorem GicOp.run_cases (op : GicOp) (env : Env) (it : Nat) (s : Sys) :
    (op.wantsGroup0 = true ∧ env.asserts = true ∧ s.gic.group it = true ∧
      Code.Stops (op.run env it) s [] .assertion) ∨
    Code.Runs (op.run env it) s [] () { s with gic := op.apply s.gic it } := by
  have hguard : ∀ f : Gic → Gic, (env.asserts = true ∧ s.gic.group it = true ∧
      Code.Stops (do gicAssertGroup0 env it; modifyGic f) s [] .assertion) ∨
      Code.Runs (do gicAssertGroup0 env it; modifyGic f) s [] () { s with gic := f s.gic } := by
    intro f
    rw [stops_gicAssertGroup0_bind, runs_gicAssertGroup0_bind]
    by_cases hstop : env.asserts = true ∧ s.gic.group it = true
    · exact Or.inl ⟨hstop.1, hstop.2, Or.inl ⟨hstop.1, hstop.2, rfl, rfl⟩⟩
    · refine Or.inr ⟨fun ha => ?_, rfl⟩
      simpa [ha] using hstop
  cases op with
  | add | disable | unsecure => exact Or.inr rfl
  | secure =>
    refine Or.inr ?_
    change Code.Runs (gicItSecure env it) _ _ _ _
    rw [gicItSecure_eq]
    rfl
  | enable => exact (hguard _).imp_left fun h => ⟨rfl, h⟩
  | setPrio prio => exact (hguard _).imp_left fun h => ⟨rfl, h⟩
  | setCpuMask cpuMask => exact (hguard _).imp_left fun h => ⟨rfl, h⟩

/-- In every state of the distributor an operation on an interrupt is stopped by its own assert, or
returns and leaves the group, the enable bit, the priority and the target of every other interrupt as
they were; `gic_it_secure` and `gic_it_unsecure` always return, keep the enable bit, and end with the
interrupt in group 0 and in group 1. -/
theorem gic_one_line (env : Env) (op : GicOp) (it : Nat) (s : Sys) :
    (op.wantsGroup0 = true ∧ env.asserts = true ∧ s.gic.group it = true ∧
      Code.Stops (op.run env it) s [] .assertion) ∨
    ∃ s', Code.Runs (op.run env it) s [] () s' ∧ (∀ j, j ≠ it → s'.gic.line j = s.gic.line j) ∧
      (op = .secure → s'.gic.enabled it = s.gic.enabled it ∧ s'.gic.group it = false) ∧
      (op = .unsecure → s'.gic.enabled it = s.gic.enabled it ∧ s'.gic.group it = true) := by
  rcases op.run_cases env it s with hstop | hrun
  · exact Or.inl hstop
  · refine Or.inr ⟨_, hrun, fun j hne => op.apply_line s.gic hne, ?_, ?_⟩
    · rintro rfl
      exact ⟨Gic.enabled_itSecure _ _ _, by simp [GicOp.apply]⟩
    · rintro rfl
      exact ⟨Gic.enabled_itUnsecure _ _ _, by simp [GicOp.apply]⟩

end SeCloak
