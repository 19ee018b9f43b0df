import SeCloak.Drivers.Gic
import SeCloak.Drivers.GpioPort

/-!
# Interrupt chips (`interrupt.c`)

The dispatch of the `irq_*` functions to the operations of a chip. The GIC and the GPC chip
are two front ends of the same distributor (`gic.c:234-260`), so what an operation acts on is a
`Line`: an interrupt of the distributor or a pin of a port. For each operation a theorem says
what it does to the enable bit and to the security of every line.
-/

namespace SeCloak
open Misc

/-! ## Dispatch -/

/-- `irq_check_valid` (`interrupt.c:69-77`). -/
def irqCheckValid (d : IrqDesc) : Kernel Unit := do
  let s ← Code.get
  Code.require (d.irq < (s.chip d.chip).numIrqs) .panic

/-- `irq_construct_chip` (`interrupt.c:36-52`). -/
def irqConstructChip (env : Env) (chip : ChipId) (numIrqs : Nat) (defaultHandler : Bool) :
    Kernel Int := do
  let ok ← malloc env
  let c : IrqChip :=
    { numIrqs := numIrqs, defaultHandler := defaultHandler,
      handlers := if ok then some (fun _ => none) else none }
  Code.modify fun s => { s with chip := Function.update s.chip chip c }
  pure (if ok then 0 else enomem)

/-- Store to an element of the handler table of a chip, which is NULL when its allocation
failed. -/
def setHandler (d : IrqDesc) (handler : Option Handler) : Kernel Unit := do
  let s ← Code.get
  match (s.chip d.chip).handlers with
  | none => Code.throw .undefined
  | some table =>
    let c := { s.chip d.chip with handlers := some (Function.update table d.irq handler) }
    Code.modify fun s => { s with chip := Function.update s.chip d.chip c }

/-- `irq_add` (`interrupt.c:109-118`). -/
def irqAdd (env : Env) (d : IrqDesc) (flags : Word) (handler : Handler) : Kernel Int := do
  irqCheckValid d
  setHandler d (some handler)
  match d.chip with
  | .gic | .gpc => gicOpAdd env d.irq
  | .gpio n => gpioOpAdd n d.irq flags

/-- `irq_remove` (`interrupt.c:120-133`); the GIC has no such operation and the call goes
through a NULL pointer. -/
def irqRemove (d : IrqDesc) : Kernel Int := do
  irqCheckValid d
  let error ← match d.chip with
    | .gic | .gpc => Code.throw .undefined
    | .gpio n => gpioOpRemove n d.irq
  Code.runIf (error = 0) (setHandler d none)
  pure error

/-- `irq_enable` (`interrupt.c:135-143`). -/
def irqEnable (env : Env) (d : IrqDesc) : Kernel Int := do
  irqCheckValid d
  match d.chip with
  | .gic | .gpc => gicOpEnable env d.irq
  | .gpio n => gpioOpEnable n d.irq

/-- `irq_disable` (`interrupt.c:145-153`). -/
def irqDisable (d : IrqDesc) : Kernel Int := do
  irqCheckValid d
  match d.chip with
  | .gic | .gpc => gicOpDisable d.irq
  | .gpio n => gpioOpDisable n d.irq

/-- `irq_secure` (`interrupt.c:155-163`). -/
def irqSecure (env : Env) (d : IrqDesc) : Kernel Int := do
  irqCheckValid d
  match d.chip with
  | .gic | .gpc => gicOpSecure env d.irq
  | .gpio n => gpioOpSecure n d.irq

/-- `irq_unsecure` (`interrupt.c:165-173`). -/
def irqUnsecure (d : IrqDesc) : Kernel Int := do
  irqCheckValid d
  match d.chip with
  | .gic | .gpc => gicOpUnsecure d.irq
  | .gpio n => gpioOpUnsecure n d.irq

/-- `irq_raise` (`interrupt.c:175-183`). -/
def irqRaise (env : Env) (d : IrqDesc) : Kernel Int := do
  irqCheckValid d
  match d.chip with
  | .gic | .gpc => gicOpRaise env d.irq
  | .gpio _ => gpioOpRaise

/-- `irq_map` (`interrupt.c:105-107`) with `gic_op_map` (`gic.c:509-516`) and `irq_op_map`
(`imx_gpio.c:665-670`): the interrupt and the flags that the cells of a specifier stand for. -/
def irqMap (chip : ChipId) (c0 c1 c2 : Word) : Nat × Word :=
  match chip with
  | .gic | .gpc => (((if c0 = 0 then 32#32 else 16#32) + c1).toNat, c2)
  | .gpio _ => (c0.toNat, c1)

/-! ## Lines -/

/-- A physical interrupt line. -/
inductive Line where
  | gic (it : Nat)
  | gpio (port pin : Nat)
  deriving DecidableEq

/-- The line behind a descriptor. -/
def IrqDesc.line (d : IrqDesc) : Line :=
  match d.chip with
  | .gic | .gpc => .gic d.irq
  | .gpio n => .gpio n d.irq

/-- The line is enabled in its controller: its `ISENABLER` bit, or its `IMR` bit. -/
def Sys.lineEnabled (s : Sys) : Line → Bool
  | .gic it => s.gic.enabled it
  | .gpio n pin =>
    match s.gpio.port n with
    | none => false
    | some p => p.regs.imr.getLsbD pin

/-- The line is secured: GIC group 0, or in the `secure_mask` of its port. -/
def Sys.lineSecured (s : Sys) : Line → Bool
  | .gic it => !s.gic.group it
  | .gpio n pin =>
    match s.gpio.port n with
    | none => false
    | some p => p.secureMask.getLsbD pin

/-- What the operations on lines may change: the distributor, and the registers and masks of
the ports that exist. -/
structure LinesOnly (s s' : Sys) : Prop where
  rest : s' = { s with gic := s'.gic, gpio := { s.gpio with port := s'.gpio.port } }
  fixed : ∀ n, (s'.gpio.port n).map Port.fixed = (s.gpio.port n).map Port.fixed

theorem LinesOnly.refl (s : Sys) : LinesOnly s s := ⟨rfl, fun _ => rfl⟩

theorem LinesOnly.trans {s s' s'' : Sys} (h : LinesOnly s s') (h' : LinesOnly s' s'') :
    LinesOnly s s'' := by
  refine ⟨?_, fun n => (h'.fixed n).trans (h.fixed n)⟩
  rw [h'.rest, h.rest]

theorem linesOnly_gic (s : Sys) (g : Gic) : LinesOnly s { s with gic := g } := ⟨rfl, fun _ => rfl⟩

theorem linesOnly_port (s : Sys) {n : Nat} {p q : Port} (hp : s.gpio.port n = some p)
    (hq : q.fixed = p.fixed) :
    LinesOnly s { s with gpio := { s.gpio with port := Function.update s.gpio.port n (some q) } } := by
  refine ⟨rfl, fun m => ?_⟩
  by_cases hm : m = n
  · subst hm
    simp [hp, hq]
  · simp [hm]

/-! ## The effect on lines -/

theorem irqCheckValid_bind {d : IrqDesc} {α : Type} {f : Unit → Kernel α} {s s' : Sys}
    {w : List Event} {a : α} : Code.Runs (irqCheckValid d >>= f) s w a s' ↔
      d.irq < (s.chip d.chip).numIrqs ∧ Code.Runs (f ()) s w a s' := by
  have h : ∀ {w u s'}, Code.Runs (irqCheckValid d) s w u s' ↔
      w = [] ∧ s' = s ∧ d.irq < (s.chip d.chip).numIrqs := by
    intro w u s'
    rw [irqCheckValid, Code.runs_get_bind, Code.runs_require]
  rw [Code.runs_bind]
  constructor
  · rintro ⟨_, _, _, _, h₁, h₂, rfl⟩
    obtain ⟨rfl, rfl, hv⟩ := h.mp h₁
    exact ⟨hv, h₂⟩
  · rintro ⟨hv, h₂⟩
    exact ⟨[], (), s, w, h.mpr ⟨rfl, rfl, hv⟩, h₂, rfl⟩

/-- The state after an operation on the line of a descriptor: `g` on the distributor or `f` on
the port, when the line exists. -/
def Sys.onLine (s : Sys) (l : Line) (g : Gic → Gic) (f : Port → Port) : Sys :=
  match l with
  | .gic _ => { s with gic := g s.gic }
  | .gpio n _ =>
    { s with gpio := { s.gpio with
        port := Function.update s.gpio.port n ((s.gpio.port n).map f) } }

theorem linesOnly_onLine (s : Sys) (l : Line) (g : Gic → Gic) {f : Port → Port}
    (hf : ∀ p, (f p).fixed = p.fixed) : LinesOnly s (s.onLine l g f) := by
  cases l with
  | gic it => exact linesOnly_gic s _
  | gpio n pin =>
    refine ⟨rfl, fun m => ?_⟩
    by_cases hm : m = n
    · subst hm
      simp only [Sys.onLine, Function.update_self, Option.map_map]
      congr 1
      funext p
      exact hf p
    · simp [Sys.onLine, Function.update_of_ne hm]

/-- A descriptor that passed `irq_check_valid` and the operation of its chip names a line that
exists. -/
def Sys.hasLine (s : Sys) : Line → Prop
  | .gic _ => True
  | .gpio n pin => pin < 32 ∧ (s.gpio.port n).isSome

theorem modifyPin_onLine {n irq : Nat} {f : Port → Port} {g : Gic → Gic} {s s' : Sys}
    {w : List Event} {r : Int} (h : Code.Runs (modifyPin n irq f) s w r s') :
    w = [] ∧ s.hasLine (.gpio n irq) ∧ s' = s.onLine (.gpio n irq) g f := by
  obtain ⟨hlt, rfl, p, hp, rfl⟩ := modifyPin_runs h
  exact ⟨rfl, ⟨hlt, by simp [hp]⟩, by simp [Sys.onLine, hp]⟩

theorem irqDisable_runs {d : IrqDesc} {s s' : Sys} {w : List Event} {r : Int}
    (h : Code.Runs (irqDisable d) s w r s') :
    w = [] ∧ s.hasLine d.line ∧
      s' = s.onLine d.line (·.itDisable d.irq) (·.irqMask d.irq true) := by
  obtain ⟨chip, irq⟩ := d
  obtain ⟨-, h⟩ := irqCheckValid_bind.mp h
  cases chip with
  | gpio n => exact modifyPin_onLine h
  | gic | gpc =>
    simp only [gicOpDisable, modifyGic, Code.runs_modify_bind, Code.runs_pure] at h
    exact ⟨h.1, trivial, h.2.2⟩

theorem irqSecure_runs {env : Env} {d : IrqDesc} {s s' : Sys} {w : List Event} {r : Int}
    (h : Code.Runs (irqSecure env d) s w r s') :
    w = [] ∧ s.hasLine d.line ∧
      s' = s.onLine d.line (·.itSecure d.irq) (·.irqOpSecure d.irq) := by
  obtain ⟨chip, irq⟩ := d
  obtain ⟨-, h⟩ := irqCheckValid_bind.mp h
  cases chip with
  | gpio n => exact modifyPin_onLine h
  | gic | gpc =>
    simp only [gicOpSecure, gicItSecure_eq, modifyGic, Code.runs_modify_bind, Code.runs_pure] at h
    exact ⟨h.1, trivial, h.2.2⟩

theorem irqUnsecure_runs {d : IrqDesc} {s s' : Sys} {w : List Event} {r : Int}
    (h : Code.Runs (irqUnsecure d) s w r s') :
    w = [] ∧ s.hasLine d.line ∧
      s' = s.onLine d.line (·.itUnsecure d.irq) (·.irqOpUnsecure d.irq) := by
  obtain ⟨chip, irq⟩ := d
  obtain ⟨-, h⟩ := irqCheckValid_bind.mp h
  cases chip with
  | gpio n => exact modifyPin_onLine h
  | gic | gpc =>
    simp only [gicOpUnsecure, modifyGic, Code.runs_modify_bind, Code.runs_pure] at h
    exact ⟨h.1, trivial, h.2.2⟩

theorem irqEnable_runs {env : Env} {d : IrqDesc} {s s' : Sys} {w : List Event} {r : Int}
    (h : Code.Runs (irqEnable env d) s w r s') :
    w = [] ∧ s.hasLine d.line ∧
      s' = s.onLine d.line (·.itEnable d.irq) (·.irqMask d.irq false) := by
  obtain ⟨chip, irq⟩ := d
  obtain ⟨-, h⟩ := irqCheckValid_bind.mp h
  cases chip with
  | gpio n => exact modifyPin_onLine h
  | gic | gpc =>
    rw [gicOpEnable, Code.runs_bind] at h
    obtain ⟨_, _, _, _, h₁, h₂, rfl⟩ := h
    rw [gicAssertGroup0, Code.runs_get_bind, runs_kassert] at h₁
    obtain ⟨rfl, rfl, -⟩ := h₁
    simp only [modifyGic, Code.runs_modify_bind, Code.runs_pure] at h₂
    exact ⟨h₂.1, trivial, h₂.2.2⟩

/-- `irq_disable` then `irq_secure`, as `dt_enable_device` calls them: the line of the
descriptor ends disabled and secured, and every other line is as it was. -/
theorem irqDisable_secure_lines {env : Env} {d : IrqDesc} {s s₁ s' : Sys} {w w' : List Event}
    {r r' : Int} (h : Code.Runs (irqDisable d) s w r s₁)
    (h' : Code.Runs (irqSecure env d) s₁ w' r' s') (l : Line) :
    s'.lineEnabled l = (s.lineEnabled l && !decide (l = d.line)) ∧
      s'.lineSecured l = (s.lineSecured l || decide (l = d.line)) := by
  obtain ⟨-, hl, rfl⟩ := irqDisable_runs h
  obtain ⟨-, -, rfl⟩ := irqSecure_runs h'
  obtain ⟨chip, irq⟩ := d
  cases chip with
  | gpio n =>
    obtain ⟨hlt, hs⟩ := hl
    obtain ⟨p, hp⟩ := Option.isSome_iff_exists.mp hs
    cases l with
    | gic it => simp [IrqDesc.line, Sys.onLine, Sys.lineEnabled, Sys.lineSecured]
    | gpio m pin =>
      by_cases hm : m = n
      · subst hm
        simp [IrqDesc.line, Sys.onLine, Sys.lineEnabled, Sys.lineSecured, hp, Port.irqMask,
          Port.irqOpSecure, -BitVec.getLsbD_and, -BitVec.getLsbD_or, hlt, eq_comm (a := pin)]
      · simp [IrqDesc.line, Sys.onLine, Sys.lineEnabled, Sys.lineSecured, hm]
  | gic | gpc =>
    cases l with
    | gic it => simp [IrqDesc.line, Sys.onLine, Sys.lineEnabled, Sys.lineSecured]
    | gpio m pin => simp [IrqDesc.line, Sys.onLine, Sys.lineEnabled, Sys.lineSecured]

/-- `irq_unsecure` then `irq_enable`: the line of the descriptor ends enabled and unsecured,
and every other line is as it was. -/
theorem irqUnsecure_enable_lines {env : Env} {d : IrqDesc} {s s₁ s' : Sys} {w w' : List Event}
    {r r' : Int} (h : Code.Runs (irqUnsecure d) s w r s₁)
    (h' : Code.Runs (irqEnable env d) s₁ w' r' s') (l : Line) :
    s'.lineEnabled l = (s.lineEnabled l || decide (l = d.line)) ∧
      s'.lineSecured l = (s.lineSecured l && !decide (l = d.line)) := by
  obtain ⟨-, hl, rfl⟩ := irqUnsecure_runs h
  obtain ⟨-, -, rfl⟩ := irqEnable_runs h'
  obtain ⟨chip, irq⟩ := d
  cases chip with
  | gpio n =>
    obtain ⟨hlt, hs⟩ := hl
    obtain ⟨p, hp⟩ := Option.isSome_iff_exists.mp hs
    cases l with
    | gic it => simp [IrqDesc.line, Sys.onLine, Sys.lineEnabled, Sys.lineSecured]
    | gpio m pin =>
      by_cases hm : m = n
      · subst hm
        simp [IrqDesc.line, Sys.onLine, Sys.lineEnabled, Sys.lineSecured, hp, Port.irqMask,
          Port.irqOpUnsecure, -BitVec.getLsbD_and, -BitVec.getLsbD_or, hlt, eq_comm (a := pin)]
      · simp [IrqDesc.line, Sys.onLine, Sys.lineEnabled, Sys.lineSecured, hm]
  | gic | gpc =>
    cases l with
    | gic it => simp [IrqDesc.line, Sys.onLine, Sys.lineEnabled, Sys.lineSecured]
    | gpio m pin => simp [IrqDesc.line, Sys.onLine, Sys.lineEnabled, Sys.lineSecured]

/-! ## How the operations stop -/

theorem stops_irqCheckValid_bind {d : IrqDesc} {α : Type} {f : Unit → Kernel α} {s : Sys}
    {w : List Event} {e : Fault} : Code.Stops (irqCheckValid d >>= f) s w e ↔
      (¬ d.irq < (s.chip d.chip).numIrqs ∧ w = [] ∧ e = .panic) ∨
        (d.irq < (s.chip d.chip).numIrqs ∧ Code.Stops (f ()) s w e) := by
  rw [irqCheckValid, Code.bind_assoc_eq, Code.stops_get_bind, Code.stops_require_bind]

/-- The faults of an operation on the line of a descriptor, but for the asserts. -/
def Sys.NoLine (s : Sys) (d : IrqDesc) (e : Fault) : Prop :=
  (e = .panic ∧ ¬ d.irq < (s.chip d.chip).numIrqs) ∨ (e = .undefined ∧ ¬ s.hasLine d.line)

theorem irqDisable_stops {d : IrqDesc} {s : Sys} {w : List Event} {e : Fault}
    (h : Code.Stops (irqDisable d) s w e) : w = [] ∧ s.NoLine d e := by
  obtain ⟨hv, rfl, rfl⟩ | ⟨-, h⟩ := stops_irqCheckValid_bind.mp h
  · exact ⟨rfl, Or.inl ⟨rfl, hv⟩⟩
  obtain ⟨chip, irq⟩ := d
  cases chip with
  | gpio n =>
    obtain ⟨hw, he, hpin⟩ := modifyPin_stops h
    exact ⟨hw, Or.inr ⟨he, hpin⟩⟩
  | gic | gpc => simp [gicOpDisable, modifyGic] at h

theorem irqSecure_stops {env : Env} {d : IrqDesc} {s : Sys} {w : List Event} {e : Fault}
    (h : Code.Stops (irqSecure env d) s w e) : w = [] ∧ s.NoLine d e := by
  obtain ⟨hv, rfl, rfl⟩ | ⟨-, h⟩ := stops_irqCheckValid_bind.mp h
  · exact ⟨rfl, Or.inl ⟨rfl, hv⟩⟩
  obtain ⟨chip, irq⟩ := d
  cases chip with
  | gpio n =>
    obtain ⟨hw, he, hpin⟩ := modifyPin_stops h
    exact ⟨hw, Or.inr ⟨he, hpin⟩⟩
  | gic | gpc => simp [gicOpSecure, gicItSecure_eq, modifyGic] at h

theorem irqUnsecure_stops {d : IrqDesc} {s : Sys} {w : List Event} {e : Fault}
    (h : Code.Stops (irqUnsecure d) s w e) : w = [] ∧ s.NoLine d e := by
  obtain ⟨hv, rfl, rfl⟩ | ⟨-, h⟩ := stops_irqCheckValid_bind.mp h
  · exact ⟨rfl, Or.inl ⟨rfl, hv⟩⟩
  obtain ⟨chip, irq⟩ := d
  cases chip with
  | gpio n =>
    obtain ⟨hw, he, hpin⟩ := modifyPin_stops h
    exact ⟨hw, Or.inr ⟨he, hpin⟩⟩
  | gic | gpc => simp [gicOpUnsecure, modifyGic] at h

/-- `irq_enable` also stops on an interrupt of the distributor that is not in group 0. -/
theorem irqEnable_stops {env : Env} {d : IrqDesc} {s : Sys} {w : List Event} {e : Fault}
    (h : Code.Stops (irqEnable env d) s w e) : w = [] ∧
      (s.NoLine d e ∨ (e = .assertion ∧ env.asserts = true ∧
        ∃ it, d.line = .gic it ∧ s.gic.group it = true)) := by
  obtain ⟨hv, rfl, rfl⟩ | ⟨-, h⟩ := stops_irqCheckValid_bind.mp h
  · exact ⟨rfl, Or.inl (Or.inl ⟨rfl, hv⟩)⟩
  obtain ⟨chip, irq⟩ := d
  cases chip with
  | gpio n =>
    obtain ⟨hw, he, hpin⟩ := modifyPin_stops h
    exact ⟨hw, Or.inl (Or.inr ⟨he, hpin⟩)⟩
  | gic | gpc =>
    obtain ⟨ha, hg, hw, he⟩ | ⟨-, h⟩ := stops_gicAssertGroup0_bind.mp h
    · exact ⟨hw, Or.inr ⟨he, ha, irq, rfl, hg⟩⟩
    · simp [modifyGic] at h

end SeCloak
