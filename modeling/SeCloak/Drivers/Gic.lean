import Mathlib.Logic.Function.Basic
import SeCloak.Misc.BitField
import SeCloak.State

/-!
# The interrupt controller (`gic.c`)

The operations the kernel performs on one interrupt of the distributor. `ISENABLER` and
`ICENABLER` are the set and clear views of the same enable bits. Each operation is given as a
function on the distributor, with what it does to the group and the enable bit of every
interrupt; the versions that run in the kernel add the asserts.
-/

namespace SeCloak
open Misc

namespace Gic

/-- The `IGROUPR` bit of an interrupt: group 1, non-secure (`gic_it_get_group`, `gic.c:448-453`). -/
def group (g : Gic) (it : Nat) : Bool := (g.igroupr (it / 32)).getLsbD (it % 32)

/-- `gic_it_is_enabled` (`gic.c:441-446`). -/
def enabled (g : Gic) (it : Nat) : Bool := (g.isenabler (it / 32)).getLsbD (it % 32)

/-- The bit of an interrupt in its registers. -/
def bit (it : Nat) : Word := BitVec.twoPow 32 (it % 32)

def writeIsenabler (g : Gic) (n : Nat) (v : Word) : Gic :=
  { g with isenabler := Function.update g.isenabler n (g.isenabler n ||| v) }

def writeIcenabler (g : Gic) (n : Nat) (v : Word) : Gic :=
  { g with isenabler := Function.update g.isenabler n (g.isenabler n &&& ~~~v) }

def writeIspendr (g : Gic) (n : Nat) (v : Word) : Gic :=
  { g with ispendr := Function.update g.ispendr n (g.ispendr n ||| v) }

def writeIcpendr (g : Gic) (n : Nat) (v : Word) : Gic :=
  { g with ispendr := Function.update g.ispendr n (g.ispendr n &&& ~~~v) }

def writeIgroupr (g : Gic) (n : Nat) (v : Word) : Gic :=
  { g with igroupr := Function.update g.igroupr n v }

/-- `gic_it_add` (`gic.c:274-286`). -/
def itAdd (g : Gic) (it : Nat) : Gic :=
  let g := g.writeIcenabler (it / 32) (bit it)
  let g := g.writeIcpendr (it / 32) (bit it)
  g.writeIgroupr (it / 32) (g.igroupr (it / 32) &&& ~~~bit it)

/-- `gic_it_set_cpu_mask` (`gic.c:288-310`) after its assert. -/
def itSetCpuMask (g : Gic) (it : Nat) (cpuMask : Byte) : Gic :=
  let shift := (it % 4) * 8
  let target := g.itargetsr (it / 4)
  let target := target &&& ~~~(0xff#32 <<< shift)
  let target := target ||| (cpuMask.setWidth 32 <<< shift)
  { g with itargetsr := Function.update g.itargetsr (it / 4) target }

/-- `gic_it_set_prio` (`gic.c:312-324`) after its assert. -/
def itSetPrio (g : Gic) (it : Nat) (prio : Byte) : Gic :=
  { g with ipriorityr := Function.update g.ipriorityr it prio }

/-- `gic_it_enable` (`gic.c:326-345`) after its assert. -/
def itEnable (g : Gic) (it : Nat) : Gic :=
  if 16 ≤ it ∧ g.enabled it = true then g else g.writeIsenabler (it / 32) (bit it)

/-- `gic_it_disable` (`gic.c:347-357`). -/
def itDisable (g : Gic) (it : Nat) : Gic := g.writeIcenabler (it / 32) (bit it)

/-- The effect of `gic_it_secure` (`gic.c:359-377`). -/
def itSecure (g : Gic) (it : Nat) : Gic :=
  if g.group it = false then g
  else
    let enabled := g.enabled it
    let g := if enabled then g.writeIcenabler (it / 32) (bit it) else g
    let g := g.writeIgroupr (it / 32) (g.igroupr (it / 32) &&& ~~~bit it)
    let g := g.itSetPrio it 0x1
    if enabled then g.writeIsenabler (it / 32) (bit it) else g

/-- `gic_it_unsecure` (`gic.c:379-396`). -/
def itUnsecure (g : Gic) (it : Nat) : Gic :=
  if g.group it = true then g
  else
    let enabled := g.enabled it
    let g := if enabled then g.writeIcenabler (it / 32) (bit it) else g
    let g := g.writeIgroupr (it / 32) (g.igroupr (it / 32) ||| bit it)
    if enabled then g.writeIsenabler (it / 32) (bit it) else g

/-- `gic_it_set_pending` (`gic.c:398-408`) after its assert. -/
def itSetPending (g : Gic) (it : Nat) : Gic := g.writeIspendr (it / 32) (bit it)

/-- `gic_init` (`gic.c:192-232`): all interrupts disabled and not pending, and non-secure but for
eight of the software interrupts. -/
def init (g : Gic) (maxIt : Nat) : Gic :=
  (List.range (maxIt / 32 + 1)).foldl (fun g n =>
    let g := g.writeIcenabler n 0xFFFFFFFF
    let g := g.writeIcpendr n 0xFFFFFFFF
    g.writeIgroupr n (if n = 0 then 0xFFFF00FF else 0xFFFFFFFF)) g

/-! ## Group and enable bits -/

theorem eq_iff_div_mod {i j n : Nat} : i = j ↔ i / n = j / n ∧ i % n = j % n := by
  constructor
  · rintro rfl; exact ⟨rfl, rfl⟩
  · rintro ⟨hd, hm⟩
    rw [← Nat.div_add_mod i n, ← Nat.div_add_mod j n, hd, hm]

/-- The bit of `j` in a bank of registers of which one had the bit of `it` set. -/
theorem getLsbD_update_or (r : Nat → Word) (it j : Nat) :
    (Function.update r (it / 32) (r (it / 32) ||| bit it) (j / 32)).getLsbD (j % 32) =
      ((r (j / 32)).getLsbD (j % 32) || decide (j = it)) := by
  have hlt : it % 32 < 32 := Nat.mod_lt _ (by decide)
  by_cases hd : j / 32 = it / 32
  · rw [hd, Function.update_self, bit, getLsbD_or_twoPow _ _ _ hlt]
    congr 1
    rw [decide_eq_decide, eq_iff_div_mod (i := j) (n := 32)]
    omega
  · have hne : j ≠ it := by rintro rfl; exact hd rfl
    simp [Function.update_of_ne hd, hne]

/-- The bit of `j` in a bank of registers of which one had the bit of `it` cleared. -/
theorem getLsbD_update_and_not (r : Nat → Word) (it j : Nat) :
    (Function.update r (it / 32) (r (it / 32) &&& ~~~bit it) (j / 32)).getLsbD (j % 32) =
      ((r (j / 32)).getLsbD (j % 32) && !decide (j = it)) := by
  have hlt : it % 32 < 32 := Nat.mod_lt _ (by decide)
  by_cases hd : j / 32 = it / 32
  · rw [hd, Function.update_self, bit, getLsbD_and_not_twoPow _ _ _ hlt]
    congr 2
    rw [decide_eq_decide, eq_iff_div_mod (i := j) (n := 32)]
    omega
  · have hne : j ≠ it := by rintro rfl; exact hd rfl
    simp [Function.update_of_ne hd, hne]

@[simp] theorem enabled_writeIsenabler (g : Gic) (it j : Nat) :
    (g.writeIsenabler (it / 32) (bit it)).enabled j = (g.enabled j || decide (j = it)) :=
  getLsbD_update_or _ _ _

@[simp] theorem enabled_writeIcenabler (g : Gic) (it j : Nat) :
    (g.writeIcenabler (it / 32) (bit it)).enabled j = (g.enabled j && !decide (j = it)) :=
  getLsbD_update_and_not _ _ _

@[simp] theorem group_writeIgroupr_or (g : Gic) (it j : Nat) :
    (g.writeIgroupr (it / 32) (g.igroupr (it / 32) ||| bit it)).group j =
      (g.group j || decide (j = it)) := getLsbD_update_or _ _ _

@[simp] theorem group_writeIgroupr_and_not (g : Gic) (it j : Nat) :
    (g.writeIgroupr (it / 32) (g.igroupr (it / 32) &&& ~~~bit it)).group j =
      (g.group j && !decide (j = it)) := getLsbD_update_and_not _ _ _

@[simp] theorem group_writeIsenabler (g : Gic) (n j : Nat) (v : Word) :
    (g.writeIsenabler n v).group j = g.group j := rfl
@[simp] theorem group_writeIcenabler (g : Gic) (n j : Nat) (v : Word) :
    (g.writeIcenabler n v).group j = g.group j := rfl
@[simp] theorem enabled_writeIgroupr (g : Gic) (n j : Nat) (v : Word) :
    (g.writeIgroupr n v).enabled j = g.enabled j := rfl
@[simp] theorem group_itSetPrio (g : Gic) (it j : Nat) (p : Byte) :
    (g.itSetPrio it p).group j = g.group j := rfl
@[simp] theorem enabled_itSetPrio (g : Gic) (it j : Nat) (p : Byte) :
    (g.itSetPrio it p).enabled j = g.enabled j := rfl
@[simp] theorem group_itSetCpuMask (g : Gic) (it j : Nat) (m : Byte) :
    (g.itSetCpuMask it m).group j = g.group j := rfl
@[simp] theorem group_itAdd (g : Gic) (it : Nat) : (g.itAdd it).group it = false := by
  unfold itAdd
  rw [group_writeIgroupr_and_not]
  simp
@[simp] theorem igroupr_writeIcenabler (g : Gic) (n : Nat) (v : Word) :
    (g.writeIcenabler n v).igroupr = g.igroupr := rfl

@[simp] theorem enabled_itDisable (g : Gic) (it j : Nat) :
    (g.itDisable it).enabled j = (g.enabled j && !decide (j = it)) := enabled_writeIcenabler _ _ _

@[simp] theorem group_itDisable (g : Gic) (it j : Nat) :
    (g.itDisable it).group j = g.group j := rfl

@[simp] theorem group_itEnable (g : Gic) (it j : Nat) : (g.itEnable it).group j = g.group j := by
  unfold itEnable
  split <;> simp

@[simp] theorem enabled_itEnable (g : Gic) (it j : Nat) :
    (g.itEnable it).enabled j = (g.enabled j || decide (j = it)) := by
  unfold itEnable
  split
  · rename_i h
    by_cases hj : j = it
    · subst hj; simp [h.2]
    · simp [hj]
  · exact enabled_writeIsenabler _ _ _

@[simp] theorem group_itSecure (g : Gic) (it j : Nat) :
    (g.itSecure it).group j = (g.group j && !decide (j = it)) := by
  unfold itSecure
  by_cases hg : g.group it = false
  · rw [if_pos hg]
    by_cases hj : j = it
    · subst hj; simp [hg]
    · simp [hj]
  · rw [if_neg hg]
    cases he : g.enabled it
    · exact group_writeIgroupr_and_not _ _ _
    · exact group_writeIgroupr_and_not (g.writeIcenabler (it / 32) (bit it)) _ _

/-- Securing an interrupt switches it off for the change of group and restores its enable bit. -/
@[simp] theorem enabled_itSecure (g : Gic) (it j : Nat) :
    (g.itSecure it).enabled j = g.enabled j := by
  unfold itSecure
  split
  · rfl
  · cases he : g.enabled it
    · rfl
    · simp only [if_true, enabled_writeIsenabler, enabled_itSetPrio, enabled_writeIgroupr,
        enabled_writeIcenabler]
      by_cases hj : j = it
      · subst hj; simp [he]
      · simp [hj]

@[simp] theorem group_itUnsecure (g : Gic) (it j : Nat) :
    (g.itUnsecure it).group j = (g.group j || decide (j = it)) := by
  unfold itUnsecure
  by_cases hg : g.group it = true
  · rw [if_pos hg]
    by_cases hj : j = it
    · subst hj; simp [hg]
    · simp [hj]
  · rw [if_neg hg]
    cases he : g.enabled it
    · exact group_writeIgroupr_or _ _ _
    · exact group_writeIgroupr_or (g.writeIcenabler (it / 32) (bit it)) _ _

@[simp] theorem enabled_itUnsecure (g : Gic) (it j : Nat) :
    (g.itUnsecure it).enabled j = g.enabled j := by
  unfold itUnsecure
  split
  · rfl
  · cases he : g.enabled it
    · rfl
    · simp only [if_true, enabled_writeIsenabler, enabled_writeIgroupr, enabled_writeIcenabler]
      by_cases hj : j = it
      · subst hj; simp [he]
      · simp [hj]

end Gic

/-! ## Operations of the chip -/

def modifyGic (f : Gic → Gic) : Kernel Unit := Code.modify fun s => { s with gic := f s.gic }

/-- The assert that an interrupt is assigned to group 0. -/
def gicAssertGroup0 (env : Env) (it : Nat) : Kernel Unit := do
  let s ← Code.get
  kassert env (s.gic.group it = false)

/-- `gic_it_set_prio` (`gic.c:312-324`). -/
def gicItSetPrio (env : Env) (it : Nat) (prio : Byte) : Kernel Unit := do
  gicAssertGroup0 env it
  modifyGic (·.itSetPrio it prio)

/-- `gic_it_secure` (`gic.c:359-377`): the interrupt is switched off for the change of group. -/
def gicItSecure (env : Env) (it : Nat) : Kernel Unit := do
  let s ← Code.get
  let enabled := s.gic.enabled it
  Code.runIf (s.gic.group it = true) do
    modifyGic fun g => if enabled then g.writeIcenabler (it / 32) (Gic.bit it) else g
    modifyGic fun g => g.writeIgroupr (it / 32) (g.igroupr (it / 32) &&& ~~~Gic.bit it)
    gicItSetPrio env it 0x1
    modifyGic fun g => if enabled then g.writeIsenabler (it / 32) (Gic.bit it) else g

/-- `gic_op_add` (`gic.c:518-526`). -/
def gicOpAdd (env : Env) (it : Nat) : Kernel Int := do
  modifyGic (·.itAdd it)
  gicAssertGroup0 env it
  modifyGic (·.itSetCpuMask it 0x1)
  gicAssertGroup0 env it
  modifyGic (·.itSetPrio it 0x1)
  pure 0

/-- `gic_op_enable` (`gic.c:528-533`). -/
def gicOpEnable (env : Env) (it : Nat) : Kernel Int := do
  gicAssertGroup0 env it
  modifyGic (·.itEnable it)
  pure 0

/-- `gic_op_disable` (`gic.c:535-540`). -/
def gicOpDisable (it : Nat) : Kernel Int := do
  modifyGic (·.itDisable it)
  pure 0

/-- `gic_op_secure` (`gic.c:542-547`). -/
def gicOpSecure (env : Env) (it : Nat) : Kernel Int := do
  gicItSecure env it
  pure 0

/-- `gic_op_unsecure` (`gic.c:549-554`). -/
def gicOpUnsecure (it : Nat) : Kernel Int := do
  modifyGic (·.itUnsecure it)
  pure 0

/-- `gic_op_raise` (`gic.c:556-561`). -/
def gicOpRaise (env : Env) (it : Nat) : Kernel Int := do
  kassert env (16 ≤ it)
  modifyGic (·.itSetPending it)
  pure 0

/-! ## Runs -/

theorem runs_gicAssertGroup0_bind {env : Env} {it : Nat} {α : Type} {f : Unit → Kernel α}
    {s s' : Sys} {w : List Event} {a : α} : Code.Runs (gicAssertGroup0 env it >>= f) s w a s' ↔
      (env.asserts = true → s.gic.group it = false) ∧ Code.Runs (f ()) s w a s' := by
  rw [gicAssertGroup0, Code.runs_bind_assoc, Code.runs_get_bind, runs_kassert_bind]

theorem stops_gicAssertGroup0_bind {env : Env} {it : Nat} {α : Type} {f : Unit → Kernel α}
    {s : Sys} {w : List Event} {e : Fault} : Code.Stops (gicAssertGroup0 env it >>= f) s w e ↔
      (env.asserts = true ∧ s.gic.group it = true ∧ w = [] ∧ e = .assertion) ∨
        ((env.asserts = true → s.gic.group it = false) ∧ Code.Stops (f ()) s w e) := by
  rw [gicAssertGroup0, Code.bind_assoc_eq, Code.stops_get_bind, stops_kassert_bind,
    Bool.not_eq_false]

/-- The assert inside `gic_it_secure` holds, since the group bit was just cleared. -/
theorem gicItSecure_eq (env : Env) (it : Nat) :
    gicItSecure env it = modifyGic (·.itSecure it) := by
  funext s
  change Code.Runs (gicItSecure env it) s [] () { s with gic := s.gic.itSecure it }
  rw [gicItSecure, Code.runs_get_bind, Code.runs_runIf]
  by_cases hg : s.gic.group it = true
  · refine Or.inl ⟨hg, ?_⟩
    have hclear : ∀ g : Gic,
        (g.writeIgroupr (it / 32) (g.igroupr (it / 32) &&& ~~~Gic.bit it)).group it = false := by
      intro g
      rw [Gic.group_writeIgroupr_and_not]
      simp
    simp only [modifyGic, Code.runs_modify_bind, gicItSetPrio, Code.runs_bind_assoc,
      runs_gicAssertGroup0_bind, Code.runs_modify, hclear, implies_true, true_and]
    unfold Gic.itSecure
    rw [hg]
    rfl
  · have hsame : s.gic.itSecure it = s.gic := if_pos (by simpa using hg)
    refine Or.inr ⟨hg, rfl, ?_⟩
    rw [hsame]

end SeCloak
