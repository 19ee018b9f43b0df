import SeCloak.Drivers.GpioIrq
import SeCloak.Kernel.WalkChips
import SeCloak.Misc.Steps

/-!
# The two front ends of the GIC (`gic.c:118-159`, `gic.c:234-260` and `gic.c:490-507`)

`probe_max_it` looks for the highest interrupt that the distributor implements, and what it finds is
used as the number of interrupts. The handler of the GIC looks into the table of the GPC first, which
is as large as that number was when the GPC was probed.
-/

namespace SeCloak
open Misc Misc.Code

/-! ## The number of interrupts -/

/-- The highest bit of a register (`gic.c:145-150`). -/
def highestBit (reg : Word) : Option Nat := (List.range 32).reverse.find? (reg.getLsbD ·)

/-- The loop of `probe_max_it` (`gic.c:136-151`) over the registers below `i`. Register `i` has the
bits of `impl i`; the others are written in vain and read as zero. -/
def probeMaxItFrom (impl : Nat → Word) : Nat → Gic → Nat × Gic
  | 0, g => (0, g)
  | i + 1, g =>
    let oldReg := g.isenabler i &&& impl i
    let g := g.writeIsenabler i 0xFFFFFFFF
    let reg := g.isenabler i &&& impl i
    let g := g.writeIcenabler i oldReg
    match highestBit reg with
    | some b => (i * 32 + b, g)
    | none => probeMaxItFrom impl i g

/-- `probe_max_it` (`gic.c:118-159`). -/
def probeMaxIt (impl : Nat → Word) (g : Gic) : Nat × Gic := probeMaxItFrom impl 32 g

/-- `gic_probe` of the interrupt controller with `probe_max_it`. -/
def gicProbeImpl (env : Env) (impl : Nat → Word) (dev : Device) : Kernel Int :=
  if dev.info.resources.length ≠ 2 ∨ dev.info.resourceType ≠ .mem then pure einval
  else do
    let s ← Code.get
    let found := probeMaxIt impl s.gic
    modifyGic fun _ => found.2
    gicProbe env dev found.1

/-- The highest interrupt that the distributor implements. -/
structure HighestIt (impl : Nat → Word) (m : Nat) : Prop where
  implemented : (impl (m / 32)).getLsbD (m % 32) = true
  lt : m < 1024
  above : ∀ it, m < it → it < 1024 → (impl (it / 32)).getLsbD (it % 32) = false

theorem find?_reverse_range {p : Nat → Bool} {n b : Nat} (hb : b < n) (hp : p b = true)
    (habove : ∀ c, b < c → c < n → p c = false) : (List.range n).reverse.find? p = some b := by
  induction n with
  | zero => exact absurd hb (Nat.not_lt_zero b)
  | succ n ih =>
    rw [List.range_succ, List.reverse_append, List.reverse_singleton, List.singleton_append]
    rcases Nat.lt_succ_iff_lt_or_eq.mp hb with hlt | rfl
    · rw [List.find?_cons_of_neg (by simp [habove n hlt (Nat.lt_succ_self n)])]
      exact ih hlt fun c hc hcn => habove c hc (hcn.trans (Nat.lt_succ_self n))
    · exact List.find?_cons_of_pos hp

theorem highestBit_eq_some {reg : Word} {b : Nat} (hb : b < 32) (hbit : reg.getLsbD b = true)
    (habove : ∀ c, b < c → c < 32 → reg.getLsbD c = false) : highestBit reg = some b :=
  find?_reverse_range hb hbit habove

theorem highestBit_eq_none {reg : Word} (h : ∀ b < 32, reg.getLsbD b = false) :
    highestBit reg = none := by
  rw [highestBit, List.find?_eq_none]
  intro b hb
  simp [h b (by simpa using hb)]

/-- Writing all bits of a register shows the ones that exist. -/
theorem isenabler_written (impl : Nat → Word) (g : Gic) (i : Nat) :
    (g.writeIsenabler i 0xFFFFFFFF).isenabler i &&& impl i = impl i := by
  have hones : (0xFFFFFFFF : Word) = BitVec.allOnes 32 := by decide
  simp only [Gic.writeIsenabler, Function.update_self]
  rw [hones, BitVec.or_allOnes, BitVec.allOnes_and]

theorem probeMaxItFrom_eq {impl : Nat → Word} {m i : Nat} (h : HighestIt impl m) (hi : m / 32 < i)
    (hle : i ≤ 32) (g : Gic) : (probeMaxItFrom impl i g).1 = m := by
  induction i generalizing g with
  | zero => exact absurd hi (Nat.not_lt_zero _)
  | succ i ih =>
    rw [probeMaxItFrom, isenabler_written]
    rcases Nat.lt_succ_iff_lt_or_eq.mp hi with hlt | heq
    · have hnone : highestBit (impl i) = none := highestBit_eq_none fun b hb => by
        have habove := h.above (i * 32 + b) (by omega) (by omega)
        rwa [show (i * 32 + b) / 32 = i by omega, show (i * 32 + b) % 32 = b by omega] at habove
      simp only [hnone]
      exact ih hlt (by omega) _
    · have hsome : highestBit (impl i) = some (m % 32) := by
        refine highestBit_eq_some (Nat.mod_lt _ (by decide)) (heq ▸ h.implemented) fun c hc hlt => ?_
        have habove := h.above (i * 32 + c) (by omega) (by omega)
        rwa [show (i * 32 + c) / 32 = i by omega, show (i * 32 + c) % 32 = c by omega] at habove
      simp only [hsome]
      omega

/-- The probe finds the highest interrupt. -/
theorem probeMaxIt_eq {impl : Nat → Word} {m : Nat} (h : HighestIt impl m) (g : Gic) :
    (probeMaxIt impl g).1 = m := probeMaxItFrom_eq h (by have := h.lt; omega) le_rfl g

/-! ## The handler -/

/-- `gic_write_eoir` (`gic.c:435-442`), for the registers of the CPU interface. -/
def gicWriteEoir (gicc : Window) (eoir : Word) : Kernel Unit :=
  Code.emit fun _ => .write ⟨gicc.vstart + 0x010, gicc.pstart + 0x010, 4⟩ eoir

/-- `gic_it_handle` (`gic.c:490-507`) when `GICC_IAR` reads as `iar`; the table of a GPC that was not
probed is NULL. -/
def gicItHandle (handle : Handler → Kernel IrqReturn) (gicc : Window) (iar : Word) :
    Kernel Unit := do
  let id := (iar &&& 0x3FF).toNat
  let s ← Code.get
  Code.runIf (id < (s.chip .gic).numIrqs) (do
    match (s.chip .gpc).handlers with
    | none => Code.throw .undefined
    | some table => do
      Code.require (id < (s.chip .gpc).numIrqs) .undefined
      if (table id).isSome then do
        let _ ← irqHandle handle ⟨.gpc, id⟩
        pure ()
      else do
        let _ ← irqHandle handle ⟨.gic, id⟩
        pure ())
  gicWriteEoir gicc iar

/-- `irq_add` has registered a handler that was not removed. -/
def Sys.Registered (s : Sys) (d : IrqDesc) (h : Handler) : Prop :=
  d.irq < (s.chip d.chip).numIrqs ∧ ∃ table, (s.chip d.chip).handlers = some table ∧
    table d.irq = some h

/-- Whatever the handlers do, the handler `h` is called once and no other, and then `EOIR` is written;
what lies between does not depend on the handlers. -/
def Sys.CallsOnce (gicc : Window) (s : Sys) (iar : Word) (h : Handler) : Prop :=
  ∃ after : IrqReturn → Sys → Sys, ∀ handle : Handler → Kernel IrqReturn,
    gicItHandle handle gicc iar s = (do
      let ret ← handle h
      Code.modify (after ret)
      gicWriteEoir gicc iar : Kernel Unit) s

section Handle

variable {s : Sys} {gicc : Window} {iar : Word} {handle : Handler → Kernel IrqReturn}
  {d : IrqDesc} {h : Handler}

theorem get_bind_apply {α : Type} (f : Sys → Kernel α) : (Code.get >>= f) s = f s s := by
  change Code.bind Code.get f s = f s s
  simp [Code.bind, Code.get]

/-- Only the run of the first part counts. -/
theorem bind_apply_congr {α β : Type} {m m' : Kernel α} {f : α → Kernel β} (hm : m s = m' s) :
    (m >>= f) s = (m' >>= f) s := by
  change Code.bind m f s = Code.bind m' f s
  unfold Code.bind
  rw [hm]

theorem irqCheckValid_bind_apply {α : Type} {f : Unit → Kernel α}
    (hd : d.irq < (s.chip d.chip).numIrqs) : (irqCheckValid d >>= f) s = f () s := by
  rw [irqCheckValid, bind_assoc_eq, get_bind_apply, Code.require, if_pos hd, pure_bind_eq]

/-- A registered handler is called; the interrupt is disabled if it did not handle it. -/
theorem irqHandle_registered (hd : s.Registered d h) : irqHandle handle d s = (do
    let ret ← handle h
    Code.runIf (ret = .none) (do
      let _ ← chipDisable d
      pure ())
    pure ret : Kernel IrqReturn) s := by
  obtain ⟨hvalid, table, htable, hentry⟩ := hd
  rw [irqHandle, irqCheckValid_bind_apply hvalid, get_bind_apply]
  simp only [htable, hentry]

/-- What the kernel does to the distributor after a handler of a front end. -/
def disableUnhandled (id : Nat) (ret : IrqReturn) (s : Sys) : Sys :=
  if ret = .none then { s with gic := s.gic.itDisable id } else s

theorem runIf_chipDisable (hfront : d.chip = .gic ∨ d.chip = .gpc) (ret : IrqReturn) :
    Code.runIf (ret = .none) (do
      let _ ← chipDisable d
      pure ()) = (Code.modify (disableUnhandled d.irq ret) : Kernel Unit) := by
  have hdisable : chipDisable d = gicOpDisable d.irq := by
    unfold chipDisable
    rcases hfront with hchip | hchip <;> rw [hchip]
  rw [hdisable]
  funext t
  by_cases hret : ret = .none
  · subst hret
    rfl
  · rw [Code.runIf, if_neg hret]
    change _ = Outcome.mk [] (Except.ok ((), disableUnhandled d.irq ret t))
    rw [disableUnhandled, if_neg hret]
    rfl

/-- A front end that calls its registered handler and then writes `EOIR` calls it once. -/
theorem callsOnce_of_irqHandle (hfront : d.chip = .gic ∨ d.chip = .gpc) (hd : s.Registered d h)
    (hhandle : ∀ handle, gicItHandle handle gicc iar s = (do
      let _ ← irqHandle handle d
      gicWriteEoir gicc iar : Kernel Unit) s) : s.CallsOnce gicc iar h := by
  refine ⟨disableUnhandled d.irq, fun handle => ?_⟩
  rw [hhandle, bind_apply_congr (irqHandle_registered hd), bind_assoc_eq]
  simp only [bind_assoc_eq, pure_bind_eq, runIf_chipDisable hfront]

variable {id : Nat}

theorem gicItHandle_apply (hid : (iar &&& 0x3FF).toNat = id) (hlt : id < (s.chip .gic).numIrqs) :
    gicItHandle handle gicc iar s = ((match (s.chip .gpc).handlers with
      | none => Code.throw .undefined
      | some table => do
        Code.require (id < (s.chip .gpc).numIrqs) .undefined
        if (table id).isSome then do
          let _ ← irqHandle handle ⟨.gpc, id⟩
          pure ()
        else do
          let _ ← irqHandle handle ⟨.gic, id⟩
          pure () : Kernel Unit) >>= fun _ => gicWriteEoir gicc iar) s := by
  rw [gicItHandle, get_bind_apply, hid, Code.runIf, if_pos hlt]

/-- The handler of the GPC comes first. -/
theorem gpc_callsOnce (hid : (iar &&& 0x3FF).toNat = id) (hlt : id < (s.chip .gic).numIrqs)
    (hd : s.Registered ⟨.gpc, id⟩ h) : s.CallsOnce gicc iar h := by
  refine callsOnce_of_irqHandle (Or.inr rfl) hd fun handle => ?_
  obtain ⟨hvalid, table, htable, hentry⟩ := hd
  simp only at hvalid htable hentry
  rw [gicItHandle_apply hid hlt, htable]
  simp only [Code.require, if_pos hvalid, hentry, Option.isSome_some, if_true, pure_bind_eq,
    bind_assoc_eq]

/-- The handler of the GIC is called if the GPC has a table without a handler. -/
theorem gic_callsOnce {table : Nat → Option Handler} (hid : (iar &&& 0x3FF).toNat = id)
    (htable : (s.chip .gpc).handlers = some table) (hlt : id < (s.chip .gpc).numIrqs)
    (hnone : table id = none) (hd : s.Registered ⟨.gic, id⟩ h) : s.CallsOnce gicc iar h := by
  refine callsOnce_of_irqHandle (Or.inl rfl) hd fun handle => ?_
  rw [gicItHandle_apply hid hd.1, htable]
  simp [Code.require, hlt, hnone, pure_bind_eq, bind_assoc_eq]

/-- Without an entry of the GPC for the interrupt the handler reads outside of the table. -/
theorem gicItHandle_stops (hid : (iar &&& 0x3FF).toNat = id) (hlt : id < (s.chip .gic).numIrqs)
    (hgpc : (s.chip .gpc).handlers = none ∨ (s.chip .gpc).numIrqs ≤ id) :
    Stops (gicItHandle handle gicc iar) s [] .undefined := by
  rw [Stops, gicItHandle_apply hid hlt]
  cases htable : (s.chip .gpc).handlers with
  | none => rfl
  | some table =>
    rcases hgpc with hnone | hle
    · rw [htable] at hnone
      cases hnone
    · simp only [Code.require, if_neg (Nat.not_lt.mpr hle)]
      rfl

/-- A handler that stops shows whether it is called. -/
theorem not_callsOnce {w : List Event} {e : Fault} (handle : Handler → Kernel IrqReturn)
    (hstops : handle h = Code.throw .panic) (hrun : Stops (gicItHandle handle gicc iar) s w e)
    (he : e ≠ .panic) : ¬ s.CallsOnce gicc iar h := by
  rintro ⟨after, hcalls⟩
  have hpanic : gicItHandle handle gicc iar s = ⟨[], .error .panic⟩ := by
    rw [hcalls handle, hstops]
    rfl
  rw [Stops, hpanic] at hrun
  injection hrun with _ hfault
  injection hfault with hfault
  exact he hfault.symm

end Handle

/-! ## Booting the front ends -/

/-- What a boot does to the chips of the GIC and the GPC. -/
inductive FrontStep where
  | gic (dev : Device)
  | gpc
  | other
  deriving DecidableEq

/-- The sizes of the two chips, and whether they have their tables. -/
def Sys.fronts (s : Sys) : (Nat × Bool) × (Nat × Bool) := (s.shape.1 .gic, s.shape.1 .gpc)

/-- One of the two is probed, or any other code of the kernel runs, which constructs neither. -/
def frontStep (env : Env) (impl : Nat → Word) (s : Sys) : FrontStep → Sys → Prop
  | .gic dev, s' => dev.info.resources.length = 2 ∧ dev.info.resourceType = .mem ∧
      ∃ w r, Runs (gicProbeImpl env impl dev) s w r s'
  | .gpc, s' => ∃ w r, Runs (gpcProbe env) s w r s'
  | .other, s' => s'.fronts = s.fronts

/-- When the GPC is probed. -/
inductive GpcProbed where
  | never
  | before
  | after
  deriving DecidableEq

/-- The probes of a boot, without what happens between them. -/
def GpcProbed.steps (dev : Device) : GpcProbed → List FrontStep
  | .never => [.gic dev]
  | .before => [.gpc, .gic dev]
  | .after => [.gic dev, .gpc]

section Boot

variable {env : Env} {impl : Nat → Word} {m : Nat} {s s' : Sys}

theorem gicProbe_fronts (hm : HighestIt impl m) {dev : Device}
    (h : frontStep env impl s (.gic dev) s') :
    s'.fronts.1.1 = m ∧ s'.fronts.2 = s.fronts.2 := by
  obtain ⟨hlen, hmem, w, r, hrun⟩ := h
  have hdev : ¬ (dev.info.resources.length ≠ 2 ∨ dev.info.resourceType ≠ .mem) := by
    simp [hlen, hmem]
  simp only [gicProbeImpl, if_neg hdev, runs_get_bind, modifyGic, runs_modify_bind,
    probeMaxIt_eq hm] at hrun
  obtain ⟨hchip, -⟩ := gicProbe_shape hrun hdev
  exact ⟨hchip.size, hchip.other (b := .gpc) (by decide)⟩

theorem gpcProbe_fronts (h : frontStep env impl s .gpc s') :
    s'.fronts.1 = s.fronts.1 ∧ s'.fronts.2.1 = s.fronts.1.1 := by
  obtain ⟨w, r, hrun⟩ := h
  obtain ⟨hchip, -⟩ := gpcProbe_shape hrun
  exact ⟨hchip.other (b := .gic) (by decide), hchip.size⟩

/-- Where each probe was called. -/
theorem steps_fronts {steps : List FrontStep} {step : FrontStep} {rest : List FrontStep}
    (h : Steps (frontStep env impl) s steps s') (hsteps : steps.filter (· ≠ .other) = step :: rest) :
    ∃ s₁ s₂ steps', s₁.fronts = s.fronts ∧ frontStep env impl s₁ step s₂ ∧
      Steps (frontStep env impl) s₂ steps' s' ∧ steps'.filter (· ≠ .other) = rest := by
  induction h with
  | nil => simp at hsteps
  | @cons s s₁ s' a as first more ih =>
    by_cases ha : a = .other
    · subst ha
      obtain ⟨t, t', steps', ht, hstep, hmore, hrest⟩ := ih (by simpa using hsteps)
      exact ⟨t, t', steps', ht.trans first, hstep, hmore, hrest⟩
    · rw [List.filter_cons_of_pos (by simpa using ha)] at hsteps
      obtain ⟨rfl, hrest⟩ := List.cons.inj hsteps
      exact ⟨s, s₁, as, rfl, first, more, hrest⟩

theorem steps_fronts_nil {steps : List FrontStep} (h : Steps (frontStep env impl) s steps s')
    (hsteps : steps.filter (· ≠ .other) = []) : s'.fronts = s.fronts := by
  induction h with
  | nil => rfl
  | @cons s s₁ s' a as first more ih =>
    by_cases ha : a = .other
    · subst ha
      exact (ih (by simpa using hsteps)).trans first
    · rw [List.filter_cons_of_pos (by simpa using ha)] at hsteps
      cases hsteps

/-- The GIC has one interrupt less than there are, and the GPC as many only if it comes later. -/
theorem fronts_of_steps {dev : Device} {probed : GpcProbed} {steps : List FrontStep}
    (hm : HighestIt impl m) (hs : s.fronts = ((0, false), (0, false)))
    (h : Steps (frontStep env impl) s steps s')
    (hsteps : steps.filter (· ≠ .other) = probed.steps dev) :
    s'.fronts.1.1 = m ∧ match probed with
      | .never => s'.fronts.2 = (0, false)
      | .before => s'.fronts.2.1 = 0
      | .after => s'.fronts.2.1 = m := by
  cases probed with
  | never =>
    obtain ⟨s₁, s₂, steps', hs₁, hgic, hmore, hrest⟩ := steps_fronts h hsteps
    obtain ⟨hsize, hgpc⟩ := gicProbe_fronts hm hgic
    rw [steps_fronts_nil hmore hrest, hgpc, hs₁, hs]
    exact ⟨hsize, rfl⟩
  | before =>
    obtain ⟨s₁, s₂, steps', hs₁, hgpc, hmore, hrest⟩ := steps_fronts h hsteps
    obtain ⟨-, hsize⟩ := gpcProbe_fronts hgpc
    obtain ⟨s₃, s₄, steps'', hs₃, hgic, hmore', hrest'⟩ := steps_fronts hmore hrest
    obtain ⟨hsize', hkeep⟩ := gicProbe_fronts hm hgic
    rw [steps_fronts_nil hmore' hrest', hkeep, hs₃, hsize, hs₁, hs]
    exact ⟨hsize', rfl⟩
  | after =>
    obtain ⟨s₁, s₂, steps', hs₁, hgic, hmore, hrest⟩ := steps_fronts h hsteps
    obtain ⟨hsize, -⟩ := gicProbe_fronts hm hgic
    obtain ⟨s₃, s₄, steps'', hs₃, hgpc, hmore', hrest'⟩ := steps_fronts hmore hrest
    obtain ⟨hkeep, hsize'⟩ := gpcProbe_fronts hgpc
    rw [steps_fronts_nil hmore' hrest', hkeep, hsize', hs₃, hsize]
    exact ⟨rfl, rfl⟩

end Boot

/-! ## Which interrupts can be used -/

/-- `irq_check_valid` accepts the interrupt on the GIC, and each handler that is registered for it is
called when the GIC reports it. -/
def Sys.Usable (gicc : Window) (s : Sys) (iar : Word) (id : Nat) : Prop :=
  (∃ w, Runs (irqCheckValid ⟨.gic, id⟩) s w () s) ∧
    ∀ c, c = .gic ∨ c = .gpc → ∀ h, s.Registered ⟨c, id⟩ h → s.CallsOnce gicc iar h

section Usable

variable {env : Env} {impl : Nat → Word} {m id : Nat} {s₀ s : Sys} {dev : Device}
  {probed : GpcProbed} {steps : List FrontStep} {gicc : Window} {iar : Word}

theorem IsReset.fronts (h : IsReset s₀) : s₀.fronts = ((0, false), (0, false)) := by
  obtain ⟨csl, sa, gic, cpmem, fbmem, mem, rfl⟩ := h
  rfl

theorem runs_irqCheckValid {d : IrqDesc} :
    (∃ w, Runs (irqCheckValid d) s w () s) ↔ d.irq < (s.chip d.chip).numIrqs := by
  simp [irqCheckValid]

/-- If the GPC has a handler for the interrupt, it is the only one that is called. -/
theorem registered_unique {h h' : Handler} (hiar : (iar &&& 0x3FF).toNat = id)
    (hlt : id < (s.chip .gic).numIrqs) (hgpc : s.Registered ⟨.gpc, id⟩ h')
    (hcalls : s.CallsOnce gicc iar h) : h' = h := by
  by_contra hne
  have hother : s.CallsOnce gicc iar h' := gpc_callsOnce hiar hlt hgpc
  obtain ⟨after, hcalled⟩ := hother
  refine not_callsOnce (w := []) (e := .assertion)
    (fun x => if x = h then Code.throw .panic else Code.throw .assertion) (if_pos rfl) ?_ (by decide)
    hcalls
  rw [Stops, hcalled, if_neg hne]
  rfl

/-- An interrupt can be used if and only if it is not the highest one and, when the GIC has a handler
for it, the GPC was probed after the GIC, has its table, and has no other handler for it. -/
theorem gic_usable_iff (hm : HighestIt impl m) (hreset : IsReset s₀)
    (hboot : Steps (frontStep env impl) s₀ steps s)
    (hsteps : steps.filter (· ≠ .other) = probed.steps dev) (hiar : (iar &&& 0x3FF).toNat = id) :
    s.Usable gicc iar id ↔ id < m ∧ ∀ h, s.Registered ⟨.gic, id⟩ h → probed = .after ∧
      (s.chip .gpc).handlers.isSome = true ∧ ∀ h', s.Registered ⟨.gpc, id⟩ h' → h' = h := by
  obtain ⟨hsize, hgpc⟩ := fronts_of_steps hm hreset.fronts hboot hsteps
  have hvalid : (∃ w, Runs (irqCheckValid ⟨.gic, id⟩) s w () s) ↔ id < m := by
    rw [runs_irqCheckValid]
    exact hsize ▸ Iff.rfl
  unfold Sys.Usable
  rw [hvalid]
  refine and_congr_right fun hlt => ?_
  have hlt' : id < (s.chip .gic).numIrqs := hlt.trans_eq hsize.symm
  constructor
  · intro hcalls h hreg
    have hcall := hcalls .gic (Or.inl rfl) h hreg
    have hentry : ¬ ((s.chip .gpc).handlers = none ∨ (s.chip .gpc).numIrqs ≤ id) := fun hno =>
      not_callsOnce (fun _ => Code.throw .panic) rfl (gicItHandle_stops hiar hlt' hno) (by decide) hcall
    obtain ⟨htable, hroom⟩ := not_or.mp hentry
    refine ⟨?_, Option.isSome_iff_ne_none.mpr htable, fun h' hreg' =>
      registered_unique hiar hlt' hreg' hcall⟩
    cases probed with
    | never =>
      have hnone := congrArg Prod.snd hgpc
      exact absurd (Option.isSome_eq_false_iff.mp hnone) (by simpa using htable)
    | before => exact absurd (hgpc.trans_le (Nat.zero_le id)) hroom
    | after => rfl
  · intro hcond c hc h hreg
    rcases hc with rfl | rfl
    · obtain ⟨rfl, hsome, honly⟩ := hcond h hreg
      obtain ⟨table, htable⟩ := Option.isSome_iff_exists.mp hsome
      have hroom : id < (s.chip .gpc).numIrqs := hlt.trans_eq hgpc.symm
      cases hentry : table id with
      | none => exact gic_callsOnce hiar htable hroom hentry hreg
      | some h' =>
        have hreg' : s.Registered ⟨.gpc, id⟩ h' := ⟨hroom, table, htable, hentry⟩
        obtain rfl := honly h' hreg'
        exact gpc_callsOnce hiar hlt' hreg'
    · exact gpc_callsOnce hiar hlt' hreg

end Usable

namespace Board

/-- The registers of a distributor with 160 interrupts. -/
def impl160 : Nat → Word := fun i => if i < 5 then 0xFFFFFFFF else 0

def gicc : Window := ⟨0x00A00100, 0x52000100, 0x100⟩

theorem highestIt_impl160 : HighestIt impl160 159 := by
  refine ⟨by decide, by decide, fun it hlo _ => ?_⟩
  have hfar : ¬ it / 32 < 5 := by omega
  simp [impl160, hfar]

def gicUp : Sys := (gicProbeImpl imx6 impl160 gic).after (resetWithInstr 0)

def gpcUp : Sys := (gpcProbe imx6).after gicUp

/-- The interrupt of the radio has a handler, with and without a GPC. -/
def radioAdded : Sys := (irqAdd imx6 ⟨.gic, 54⟩ 4 (.port 0)).after gpcUp

def radioAlone : Sys := (irqAdd imx6 ⟨.gic, 54⟩ 4 (.port 0)).after gicUp

theorem gicUp_step : frontStep imx6 impl160 (resetWithInstr 0) (.gic gic) gicUp := by
  obtain ⟨r, hrun⟩ := runs_after (m := gicProbeImpl imx6 impl160 gic) (s := resetWithInstr 0)
    (by decide +kernel)
  exact ⟨rfl, rfl, _, r, hrun⟩

theorem gpcUp_step : frontStep imx6 impl160 gicUp .gpc gpcUp := by
  obtain ⟨r, hrun⟩ := runs_after (m := gpcProbe imx6) (s := gicUp) (by decide +kernel)
  exact ⟨_, r, hrun⟩

theorem radioAdded_step : frontStep imx6 impl160 gpcUp .other radioAdded := by
  obtain ⟨_, hrun⟩ := runs_after (m := irqAdd imx6 ⟨.gic, 54⟩ 4 (.port 0)) (s := gpcUp)
    (by decide +kernel)
  have hshape : radioAdded.shape = gpcUp.shape := irqAdd_shape _ _ _ _ hrun
  rw [frontStep, Sys.fronts, hshape]
  rfl

theorem radioAlone_step : frontStep imx6 impl160 gicUp .other radioAlone := by
  obtain ⟨_, hrun⟩ := runs_after (m := irqAdd imx6 ⟨.gic, 54⟩ 4 (.port 0)) (s := gicUp)
    (by decide +kernel)
  have hshape : radioAlone.shape = gicUp.shape := irqAdd_shape _ _ _ _ hrun
  rw [frontStep, Sys.fronts, hshape]
  rfl

theorem radioAdded_boot : Steps (frontStep imx6 impl160) (resetWithInstr 0)
    [.gic gic, .gpc, .other] radioAdded :=
  .cons gicUp_step (.cons gpcUp_step (.cons radioAdded_step (.nil _)))

theorem radioAlone_boot : Steps (frontStep imx6 impl160) (resetWithInstr 0)
    [.gic gic, .other] radioAlone :=
  .cons gicUp_step (.cons radioAlone_step (.nil _))

end Board

theorem gic_usable_iff_radio : Board.radioAdded.Usable Board.gicc 54 54 ↔
    54 < 159 ∧ ∀ h, Board.radioAdded.Registered ⟨.gic, 54⟩ h → GpcProbed.after = .after ∧
      (Board.radioAdded.chip .gpc).handlers.isSome = true ∧
        ∀ h', Board.radioAdded.Registered ⟨.gpc, 54⟩ h' → h' = h :=
  gic_usable_iff Board.highestIt_impl160 (isReset_resetWithInstr 0) Board.radioAdded_boot rfl
    (by decide)

/-- The highest interrupt is refused in any case, and without a GPC no handler of the GIC is
called. -/
theorem highestIt_refused :
    HighestIt Board.impl160 159 ∧
    Steps (frontStep imx6 Board.impl160) (resetWithInstr 0) [.gic Board.gic, .other]
      Board.radioAlone ∧
    Stops (irqCheckValid ⟨.gic, 159⟩) Board.radioAlone [] .panic ∧
    Board.radioAlone.Registered ⟨.gic, 54⟩ (.port 0) ∧
    (∀ handle, Stops (gicItHandle handle Board.gicc 54) Board.radioAlone [] .undefined) ∧
    ¬ ∀ id ≤ 159, ∀ iar, (iar &&& 0x3FF).toNat = id → Board.radioAlone.Usable Board.gicc iar id := by
  have hlines : (Board.radioAlone.chip .gic).numIrqs = 159 := by decide +kernel
  have hgpc : (Board.radioAlone.chip .gpc).handlers.isNone = true := by decide +kernel
  have htable : (Board.radioAlone.chip .gic).handlers.map (· 54) = some (some (.port 0)) := by
    decide +kernel
  refine ⟨Board.highestIt_impl160, Board.radioAlone_boot, ?_, ?_, fun handle => ?_, fun hall => ?_⟩
  · simp [irqCheckValid, hlines]
  · obtain ⟨table, htable, hentry⟩ := Option.map_eq_some_iff.mp htable
    exact ⟨by rw [hlines]; decide, table, htable, hentry⟩
  · exact gicItHandle_stops (rfl : _ = 54) (by rw [hlines]; decide)
      (Or.inl (Option.isNone_iff_eq_none.mp hgpc))
  · have hvalid := runs_irqCheckValid.mp (hall 159 le_rfl 159 (by decide)).1
    simp [hlines] at hvalid

end SeCloak
