import SeCloak.Drivers.GicLines
import SeCloak.Kernel.Boot

/-!
# Operations a chip may leave out (`interrupt.c:120-211`)

A driver leaves `remove`, `raise_sgi` and `set_affinity` out of its `irq_chip_ops` when its
controller has no such operation. The entry points of `interrupt.c` are given here for any chip, as
functions of the operations it has.
-/

namespace SeCloak
open Misc Misc.Code

/-! ## Operations of a chip -/

/-- The three operations of `struct irq_chip_ops` (`interrupt.h:49-60`), where `none` is NULL. An
operation never takes away the handler table of a chip. -/
structure OptionalOps where
  remove : Option (Nat → Kernel Int) := none
  raiseSgi : Option (Nat → Byte → Kernel Int) := none
  setAffinity : Option (Nat → Byte → Kernel Int) := none
  remove_table : ∀ op ∈ remove, ∀ irq,
    Within (op irq) (Keeps fun s c => (s.chip c).handlers.isSome) := by simp

/-- Which of the operations a chip has. -/
structure Implemented where
  remove : Bool
  raiseSgi : Bool
  setAffinity : Bool

def OptionalOps.implemented (ops : OptionalOps) : Implemented :=
  ⟨ops.remove.isSome, ops.raiseSgi.isSome, ops.setAffinity.isSome⟩

/-- A call of one of the entry points, with its argument. -/
inductive OptionalCall where
  | remove
  | raiseSgi (cpuMask : Byte)
  | setAffinity (cpuMask : Byte)

/-- The operation that a call is for. -/
def OptionalOps.op (ops : OptionalOps) (irq : Nat) : OptionalCall → Option (Kernel Int)
  | .remove => ops.remove.map fun op => op irq
  | .raiseSgi cpuMask => ops.raiseSgi.map fun op => op irq cpuMask
  | .setAffinity cpuMask => ops.setAffinity.map fun op => op irq cpuMask

/-- A call through a member of `chip->ops`. -/
def callOp : Option (Kernel Int) → Kernel Int
  | none => Code.throw .undefined
  | some op => op

/-- The guard of `irq_raise_sgi` and `irq_set_affinity`: it is the operation that is there that is
refused. -/
def callGuarded (op : Option (Kernel Int)) : Kernel Int :=
  if op.isSome then pure einval else callOp op

/-- `irq_remove` (`interrupt.c:120-133`). -/
def irqRemoveOf (ops : OptionalOps) (d : IrqDesc) : Kernel Int := do
  irqCheckValid d
  let error ← callOp (ops.op d.irq .remove)
  Code.runIf (error = 0) (setHandler d none)
  pure error

/-- `irq_raise_sgi` (`interrupt.c:185-197`). -/
def irqRaiseSgi (ops : OptionalOps) (d : IrqDesc) (cpuMask : Byte) : Kernel Int := do
  irqCheckValid d
  callGuarded (ops.op d.irq (.raiseSgi cpuMask))

/-- `irq_set_affinity` (`interrupt.c:199-211`). -/
def irqSetAffinity (ops : OptionalOps) (d : IrqDesc) (cpuMask : Byte) : Kernel Int := do
  irqCheckValid d
  callGuarded (ops.op d.irq (.setAffinity cpuMask))

def OptionalCall.run (ops : OptionalOps) (d : IrqDesc) : OptionalCall → Kernel Int
  | .remove => irqRemoveOf ops d
  | .raiseSgi cpuMask => irqRaiseSgi ops d cpuMask
  | .setAffinity cpuMask => irqSetAffinity ops d cpuMask

/-! ## The two chips -/

/-- A store to `GICD_SGIR`: the software interrupt becomes pending on the CPUs of the target list,
here the first one, if it is in the group that the store asks for. -/
def Gic.writeSgir (g : Gic) (v : Word) : Gic :=
  let it := (v &&& 0xf).toNat
  if v.getLsbD 16 = true ∧ g.group it = v.getLsbD 15 then g.writeIspendr 0 (Gic.bit it) else g

/-- `gic_it_raise_sgi` (`gic.c:410-424`). -/
def gicItRaiseSgi (env : Env) (it : Nat) (cpuMask group : Byte) : Kernel Unit := do
  let maskId := BitVec.ofNat 32 it &&& 0xf
  let maskGroup := group.setWidth 32 &&& 0x1
  let maskCpu := cpuMask.setWidth 32 &&& 0xff
  let mask := maskId ||| (maskGroup <<< 15) ||| (maskCpu <<< 16)
  kassert env (it < 16)
  modifyGic (·.writeSgir mask)

/-- `gic_op_raise_sgi` (`gic.c:563-574`). -/
def gicOpRaiseSgi (env : Env) (it : Nat) (cpuMask : Byte) : Kernel Int := do
  if it < 8 then gicItRaiseSgi env it cpuMask 1 else gicItRaiseSgi env it cpuMask 0
  pure 0

/-- `gic_op_set_affinity` (`gic.c:576-582`). -/
def gicOpSetAffinity (env : Env) (it : Nat) (cpuMask : Byte) : Kernel Int := do
  gicItSetCpuMask env it cpuMask
  pure 0

/-- `gic_ops` (`gic.c:106-116`). -/
def gicOps (env : Env) : OptionalOps where
  raiseSgi := some (gicOpRaiseSgi env)
  setAffinity := some (gicOpSetAffinity env)

/-- `irq_ops` (`imx_gpio.c:73-82`). -/
def irqOps (n : Nat) : OptionalOps where
  remove := some (gpioOpRemove n)
  remove_table := by
    rintro _ ⟨⟩ irq s w r s' h
    obtain ⟨-, -, p, -, rfl⟩ := modifyPin_runs h
    rfl

/-! ## What a dispatch should do -/

/-- The handler of the descriptor is cleared. -/
def Sys.withoutHandler (s : Sys) (d : IrqDesc) : Sys :=
  let c := s.chip d.chip
  { s with chip := Function.update s.chip d.chip { c with
      handlers := c.handlers.map fun table => Function.update table d.irq none } }

/-- A missing operation gives `-EINVAL` and changes nothing. One that is there is called, and its
result, or the fault it stops with, is that of the call; if it removes an interrupt, the handler is
cleared exactly when it succeeds. -/
def DispatchedRight (ops : OptionalOps) (call : OptionalCall) (d : IrqDesc) (s : Sys) : Prop :=
  match ops.op d.irq call with
  | none => Runs (call.run ops d) s [] einval s
  | some op =>
    (∀ w r s₁, Runs op s w r s₁ → Runs (call.run ops d) s w r
      (match call with
        | .remove => if r = 0 then s₁.withoutHandler d else s₁
        | _ => s₁)) ∧
    ∀ w e, Stops op s w e → Stops (call.run ops d) s w e

/-- A chip of which every operation does nothing and succeeds. -/
def Implemented.idle (has : Implemented) : OptionalOps where
  remove := if has.remove then some fun _ => pure 0 else none
  raiseSgi := if has.raiseSgi then some fun _ _ => pure 0 else none
  setAffinity := if has.setAffinity then some fun _ _ => pure 0 else none
  remove_table := by
    intro op hop irq
    split at hop
    · obtain rfl := Option.some.inj hop
      exact within_pure (keeps_closed _) 0
    · cases hop

theorem Implemented.idle_implemented (has : Implemented) : has.idle.implemented = has := by
  obtain ⟨remove, raiseSgi, setAffinity⟩ := has
  cases remove <;> cases raiseSgi <;> cases setAffinity <;> rfl

theorem Implemented.idle_op (has : Implemented) (irq : Nat) (call : OptionalCall) (op : Kernel Int)
    (hop : has.idle.op irq call = some op) : op = pure 0 := by
  cases call with
  | remove | raiseSgi cpuMask | setAffinity cpuMask =>
    obtain ⟨f, hf, rfl⟩ := Option.map_eq_some_iff.mp hop
    obtain ⟨-, hidle⟩ := Option.ite_none_right_eq_some.mp hf
    rw [← Option.some.inj hidle]

/-! ## The entry points -/

section Calls

variable {ops : OptionalOps} {d : IrqDesc} {s s' : Sys} {w : List Event} {r : Int}

theorem setHandler_none_runs (htable : (s.chip d.chip).handlers.isSome = true) :
    Runs (setHandler d none) s [] () (s.withoutHandler d) := by
  obtain ⟨table, htab⟩ := Option.isSome_iff_exists.mp htable
  rw [setHandler, runs_get_bind]
  simp [htab, Sys.withoutHandler]

theorem irqRemoveOf_right (hvalid : d.irq < (s.chip d.chip).numIrqs)
    (htable : (s.chip d.chip).handlers.isSome = true) (hop : ops.remove.isSome = true) :
    DispatchedRight ops .remove d s := by
  obtain ⟨body, hbody⟩ := Option.isSome_iff_exists.mp hop
  have hcall : ops.op d.irq .remove = some (body d.irq) := by
    simp [OptionalOps.op, hbody]
  unfold DispatchedRight
  rw [hcall]
  constructor
  · intro w r s₁ hrun
    refine irqCheckValid_bind.mpr ⟨hvalid, ?_⟩
    rw [hcall]
    refine runs_bind.mpr ⟨w, r, s₁, [], hrun, ?_, (List.append_nil w).symm⟩
    have htab₁ : (s₁.chip d.chip).handlers.isSome = true :=
      (congrFun (ops.remove_table body hbody d.irq hrun) d.chip).trans htable
    by_cases hr : r = 0
    · simp only [hr, runIf, if_true]
      exact runs_bind.mpr ⟨[], (), _, [], setHandler_none_runs htab₁, runs_pure.mpr ⟨rfl, rfl, rfl⟩, rfl⟩
    · simp [hr, runIf]
  · intro w e hstop
    refine stops_irqCheckValid_bind.mpr (Or.inr ⟨hvalid, ?_⟩)
    rw [hcall]
    exact stops_bind.mpr (Or.inl hstop)

/-- Without the operation `irq_remove` calls NULL. -/
theorem irqRemoveOf_not_runs (hop : ops.remove = none) : ¬ Runs (irqRemoveOf ops d) s w r s' := by
  intro h
  obtain ⟨-, h⟩ := irqCheckValid_bind.mp h
  obtain ⟨_, _, _, _, h, -⟩ := runs_bind.mp h
  rw [OptionalOps.op, hop] at h
  exact runs_throw h

/-- The guarded entry points succeed only with `-EINVAL`, and only if the operation is there. -/
theorem callGuarded_runs {op : Option (Kernel Int)} (h : Runs (callGuarded op) s w r s') :
    op.isSome = true ∧ r = einval := by
  cases op with
  | none => exact absurd h runs_throw
  | some op => exact ⟨rfl, (runs_pure.mp h).2.1⟩

/-- An idle chip shows that a guarded entry point is never right. -/
theorem not_right_of_callGuarded {call : OptionalCall}
    (hrun : ∀ w r s', Runs (call.run ops d) s w r s' → Runs (callGuarded (ops.op d.irq call)) s w r s')
    (hidle : ∀ op, ops.op d.irq call = some op → op = pure 0) :
    ¬ DispatchedRight ops call d s := by
  unfold DispatchedRight
  intro h
  cases hop : ops.op d.irq call with
  | none =>
    rw [hop] at h
    have hsome := (callGuarded_runs (hrun _ _ _ h)).1
    rw [hop] at hsome
    cases hsome
  | some op =>
    rw [hop] at h
    have hcalled := h.1 [] 0 s (hidle op hop ▸ runs_pure.mpr ⟨rfl, rfl, rfl⟩)
    have hzero := (callGuarded_runs (hrun _ _ _ hcalled)).2
    exact absurd hzero (by decide)

end Calls

/-- For a valid descriptor of a registered chip an entry point is right, whatever the operations of
the chip do, if and only if it is `irq_remove` and the chip has the operation. -/
theorem dispatch_right_iff (has : Implemented) (call : OptionalCall) (d : IrqDesc) (s : Sys)
    (hvalid : d.irq < (s.chip d.chip).numIrqs) (htable : (s.chip d.chip).handlers.isSome = true) :
    (∀ ops : OptionalOps, ops.implemented = has → DispatchedRight ops call d s) ↔
      call = .remove ∧ has.remove = true := by
  constructor
  · intro h
    have hright := h has.idle has.idle_implemented
    cases call with
    | remove =>
      refine ⟨rfl, by_contra fun hno => ?_⟩
      have hnone : has.idle.remove = none := by simp [Implemented.idle, hno]
      simp only [DispatchedRight, OptionalOps.op, hnone, Option.map_none] at hright
      exact irqRemoveOf_not_runs hnone hright
    | raiseSgi cpuMask =>
      refine absurd hright (not_right_of_callGuarded (fun _ _ _ hrun => ?_) ?_)
      · exact (irqCheckValid_bind.mp hrun).2
      · exact has.idle_op d.irq (.raiseSgi cpuMask)
    | setAffinity cpuMask =>
      refine absurd hright (not_right_of_callGuarded (fun _ _ _ hrun => ?_) ?_)
      · exact (irqCheckValid_bind.mp hrun).2
      · exact has.idle_op d.irq (.setAffinity cpuMask)
  · rintro ⟨rfl, hhas⟩ ops rfl
    exact irqRemoveOf_right hvalid htable hhas

/-- The GPIO chip of the board has `remove` and nothing else. -/
theorem dispatch_right_iff_gpio :
    (∀ ops : OptionalOps, ops.implemented = (irqOps 0).implemented →
      DispatchedRight ops .remove ⟨.gpio 0, 5⟩ (Board.booted imx6 0)) ↔
      OptionalCall.remove = .remove ∧ (irqOps 0).implemented.remove = true :=
  dispatch_right_iff _ _ _ _ (by decide +kernel) (by decide +kernel)

/-- The affinity of an interrupt of the distributor cannot be set. -/
theorem gic_setAffinity_refused :
    ¬ DispatchedRight (gicOps imx6Release) (.setAffinity 2) ⟨.gic, 54⟩ (Board.booted imx6Release 0) := by
  intro h
  have hop : Runs (gicOpSetAffinity imx6Release 54 2) (Board.booted imx6Release 0) [] 0
      { Board.booted imx6Release 0 with gic := (Board.booted imx6Release 0).gic.itSetCpuMask 54 2 } := by
    simp [gicOpSetAffinity, gicItSetCpuMask, runs_bind_assoc, gicAssertGroup0, modifyGic, imx6Release]
  have hcalled := (irqCheckValid_bind.mp (h.1 _ _ _ hop)).2
  exact absurd (callGuarded_runs hcalled).2 (by decide)

end SeCloak
