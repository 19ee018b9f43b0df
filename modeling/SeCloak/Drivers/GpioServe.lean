import SeCloak.Drivers.GpioIrq
import SeCloak.Misc.Returns
import SeCloak.Misc.SetBits

/-!
# What the handler of a port serves (`imx_gpio.c:500-532`)

The handler takes each pending pin once, the highest first, and leaves the other pins alone. A pin
that it takes is acknowledged or masked afterwards, unless no handler was added for it and it is
secured: then the loop clears its bit in `irq_stat` and nothing else.
-/

namespace SeCloak
open Misc

/-! ## The loop -/

/-- The loop of `mxc_gpio_irq_handler` (`imx_gpio.c:502-527`). -/
def mxcGpioLoop (n : Nat) (irqStat : Word) : Kernel Unit :=
  if irqStat = 0#32 then pure ()
  else do
    mxcGpioServe n (fls irqStat - 1)
    mxcGpioLoop n (irqStat &&& ~~~BitVec.twoPow 32 (fls irqStat - 1))
termination_by irqStat.toNat
decreasing_by exact toNat_clear_lt (getLsbD_fls ‹_›)

theorem irqOffsets_eq (irqStat : Word) : irqOffsets irqStat = setBits irqStat := rfl

/-- The loop serves the pins of `irq_stat` in the order of `irqOffsets`. -/
theorem mxcGpioLoop_eq (n : Nat) (irqStat : Word) :
    mxcGpioLoop n irqStat = Code.forEach (mxcGpioServe n) (irqOffsets irqStat) := by
  fun_induction mxcGpioLoop n irqStat with
  | case1 =>
    rw [irqOffsets_eq, setBits_zero]
    rfl
  | case2 irqStat hne ih =>
    rw [irqOffsets_eq, setBits_fls hne, ih]
    rfl

/-! ## Pins of a port -/

namespace Port

/-- The latched interrupts that are not masked. -/
def pending (p : Port) : Word := p.regs.isr &&& p.regs.imr

theorem getLsbD_pending (p : Port) (i : Nat) :
    p.pending.getLsbD i = (p.regs.isr.getLsbD i && p.regs.imr.getLsbD i) := BitVec.getLsbD_and

/-- Serving the pin `i` leaves what identifies the port, the security of its pins and the other
pending pins; the pin itself stays pending if it is stuck. -/
structure Served (i : Nat) (stuck : Bool) (p q : Port) : Prop where
  fixed : q.fixed = p.fixed
  mask : q.secureMask = p.secureMask
  pending : ∀ j, q.pending.getLsbD j = (p.pending.getLsbD j && (!decide (j = i) || stuck))

theorem served_self (i : Nat) (p : Port) : p.Served i true p := by
  refine ⟨rfl, rfl, fun j => ?_⟩
  rw [Bool.or_true, Bool.and_true]

theorem served_irqAck (p : Port) (i : Nat) : p.Served i false (p.irqAck i) := by
  refine ⟨rfl, rfl, fun j => ?_⟩
  rw [getLsbD_pending, getLsbD_pending, Bool.or_false]
  change ((p.regs.isr &&& ~~~BitVec.twoPow 32 i).getLsbD j && _) = _
  rw [getLsbD_clear, Bool.and_right_comm]
  rfl

theorem served_passIrq (p : Port) (i : Nat) : p.Served i false (p.passIrq i) := by
  refine ⟨rfl, rfl, fun j => ?_⟩
  rw [getLsbD_pending, getLsbD_pending, Bool.or_false]
  change (_ && (p.regs.imr &&& ~~~BitVec.twoPow 32 i).getLsbD j) = _
  rw [getLsbD_clear, Bool.and_assoc]
  rfl

theorem served_flipEdge (hw : HwData) (p : Port) (i j : Nat) : p.Served i true (p.flipEdge hw j) := by
  have hicr : ∀ e, p.Served i true (p.writeIcr j e) := by
    intro e
    unfold writeIcr
    split <;> exact ⟨rfl, rfl, (p.served_self i).pending⟩
  unfold flipEdge
  split_ifs
  · exact hicr _
  · exact hicr _
  · exact p.served_self i

theorem Served.trans {i : Nat} {a b : Bool} {p q r : Port} (h : p.Served i a q)
    (h' : q.Served i b r) : p.Served i (a && b) r where
  fixed := h'.fixed.trans h.fixed
  mask := h'.mask.trans h.mask
  pending j := by
    rw [h'.pending j, h.pending j, Bool.and_assoc, ← Bool.or_and_distrib_left]

end Port

/-! ## A port that can take interrupts -/

/-- The handler object exists. -/
def Handler.Exists (s : Sys) : Handler → Prop
  | .button b => b < ((s.keys.bind (·.buttons)).getD []).length
  | .port _ | .portHigh _ => True

instance (s : Sys) : (h : Handler) → Decidable (h.Exists s)
  | .button b => inferInstanceAs (Decidable (b < ((s.keys.bind (·.buttons)).getD []).length))
  | .port _ | .portHigh _ => inferInstanceAs (Decidable True)

/-- `irq_raise` accepts the interrupt. -/
def Sys.Raises (env : Env) (s : Sys) (d : IrqDesc) : Prop :=
  d.irq < (s.chip d.chip).numIrqs ∧ (env.asserts = true → d.chip = .gic ∨ d.chip = .gpc → 16 ≤ d.irq)

instance (env : Env) (s : Sys) (d : IrqDesc) : Decidable (s.Raises env d) :=
  inferInstanceAs (Decidable (_ ∧ _))

/-- The `n`-th port is `p`, `handlers` are the handlers of its pins, and they exist. -/
structure Sys.PortReady (env : Env) (n : Nat) (handlers : Nat → Option Handler) (p : Port)
    (s : Sys) : Prop where
  hwtype : s.gpio.hwtype.isSome = true
  port : s.gpio.port n = some p
  chip : s.chip (.gpio n) = ⟨32, true, some handlers⟩
  exist : ∀ i < 32, ∀ h, handlers i = some h → h.Exists s
  pass : s.Raises env p.irqPass

section

variable {env : Env} {n i : Nat} {handlers : Nat → Option Handler} {p : Port} {s : Sys}

theorem Handler.Exists.congr {s' : Sys} {h : Handler} (hs : h.Exists s) (hkeys : s'.keys = s.keys) :
    h.Exists s' := by
  cases h with
  | button b =>
    change b < ((s'.keys.bind (·.buttons)).getD []).length
    rw [hkeys]
    exact hs
  | port _ | portHigh _ => trivial

/-- Only the port changes, and nothing of it that identifies it. -/
theorem Sys.PortReady.congr {s' : Sys} {q : Port} (hs : s.PortReady env n handlers p)
    (hhw : s'.gpio.hwtype = s.gpio.hwtype) (hchip : s'.chip = s.chip) (hkeys : s'.keys = s.keys)
    (hport : s'.gpio.port n = some q) (hfixed : q.fixed = p.fixed) :
    s'.PortReady env n handlers q where
  hwtype := by
    rw [hhw]
    exact hs.hwtype
  port := hport
  chip := by
    rw [hchip]
    exact hs.chip
  exist i hi h hh := (hs.exist i hi h hh).congr hkeys
  pass := by
    have hpass : q.irqPass = p.irqPass := congrArg (fun x => x.2.2.2.2.2) hfixed
    rw [hpass]
    unfold Sys.Raises
    rw [hchip]
    exact hs.pass

/-- An update of the port. -/
theorem returns_modifyPort {f : Port → Port} (hs : s.PortReady env n handlers p)
    (hfixed : (f p).fixed = p.fixed) :
    Code.Returns (modifyPort n f) s fun _ s' => s'.PortReady env n handlers (f p) := by
  rw [modifyPort]
  apply Code.returns_get_bind
  rw [hs.port]
  apply Code.returns_modify
  exact hs.congr rfl rfl rfl (Function.update_self _ _ _) hfixed

theorem returns_gpioKeysIrq {b : Nat} (hs : s.PortReady env n handlers p)
    (hb : (Handler.button b).Exists s) : Code.Returns (gpioKeysIrq b) s fun ret s' =>
      (ret = .handled ∨ ret = .handledPass) ∧ s'.PortReady env n handlers p := by
  have hlt : b < ((s.keys.bind (·.buttons)).getD []).length := hb
  obtain ⟨buttons, hbuttons⟩ : ∃ buttons, s.keys.bind (·.buttons) = some buttons := by
    cases hnone : s.keys.bind (·.buttons) with
    | none =>
      rw [hnone] at hlt
      exact absurd hlt (Nat.not_lt_zero b)
    | some buttons => exact ⟨buttons, rfl⟩
  rw [hbuttons, Option.getD_some] at hlt
  rw [gpioKeysIrq]
  apply Code.returns_get_bind
  simp only [hbuttons, List.getElem?_eq_getElem hlt]
  obtain ⟨k, hk, -⟩ := Option.bind_eq_some_iff.mp hbuttons
  obtain ⟨w, consume, s', hrun⟩ : ∃ w consume s',
      Code.Runs (gpioKeysHandler (buttons[b]).code) s w consume s' := by
    obtain ⟨w, consume, s', hall⟩ := (pressAll_total (buttons[b]).code k.handlers false).runs s
    refine ⟨w, consume, s', ?_⟩
    rw [gpioKeysHandler, Code.runs_get_bind, hk]
    exact hall
  have hpress := gpioKeysHandler_pressOnly _ hrun
  refine Code.returns_bind (P := fun _ s' => s'.PortReady env n handlers p)
    ⟨w, consume, s', hrun, ?_⟩ fun consume s' hs' => Code.returns_pure ⟨?_, hs'⟩
  · apply hs.congr _ _ _ _ rfl
    all_goals rw [hpress.rest]
    exact hs.port
  · cases consume with
    | true => exact Or.inl rfl
    | false => exact Or.inr rfl

/-- The handler of a pin returns, and it never answers `ITRR_NONE`. -/
theorem returns_pinHandler {h : Handler} (hs : s.PortReady env n handlers p) (hh : h.Exists s) :
    Code.Returns (pinHandler h) s fun ret s' =>
      (ret = .handled ∨ ret = .handledPass) ∧ s'.PortReady env n handlers p := by
  cases h with
  | button b => exact returns_gpioKeysIrq hs hh
  | port _ | portHigh _ => exact Code.returns_pure ⟨Or.inl rfl, hs⟩

/-- What `irq_handle` returns for a pin. -/
theorem returns_irqHandle (hs : s.PortReady env n handlers p) (hi : i < 32) :
    Code.Returns (irqHandle pinHandler ⟨.gpio n, i⟩) s fun ret s' =>
      (((handlers i).isNone = false ∧ (ret = .handled ∨ ret = .handledPass)) ∨
        ((handlers i).isNone = true ∧ ret = .handledDefault)) ∧ s'.PortReady env n handlers p := by
  rw [irqHandle, irqCheckValid, Code.bind_assoc_eq]
  apply Code.returns_get_bind
  apply Code.returns_require_bind
  · rw [hs.chip]
    exact hi
  apply Code.returns_get_bind
  rw [hs.chip]
  cases hh : handlers i with
  | none =>
    simp only [hh]
    exact Code.returns_pure ⟨Or.inr ⟨rfl, rfl⟩, hs⟩
  | some h =>
    simp only [hh]
    refine Code.returns_bind (returns_pinHandler hs (hs.exist i hi h hh)) fun ret s' hs' => ?_
    obtain ⟨hret, hs'⟩ := hs'
    have hne : ret ≠ .none := by
      rintro rfl
      rcases hret with hret | hret <;> cases hret
    refine Code.returns_bind (P := fun _ t => t = s') ?_ fun _ t ht => ?_
    · exact Code.returns_runIf (fun heq => absurd heq hne) fun _ => rfl
    · subst ht
      exact Code.returns_pure ⟨Or.inl ⟨rfl, hret⟩, hs'⟩

/-- Serving a pin, which is stuck if it is secured and has no handler. -/
theorem returns_mxcGpioServe (hs : s.PortReady env n handlers p) (hi : i < 32) :
    Code.Returns (mxcGpioServe n i) s fun _ s' =>
      ∃ q, s'.PortReady env n handlers q ∧
        p.Served i (p.secureMask.getLsbD i && (handlers i).isNone) q := by
  rw [mxcGpioServe]
  apply Code.returns_get_bind
  obtain ⟨ty, hty⟩ := Option.isSome_iff_exists.mp hs.hwtype
  simp only [hty]
  set p₁ := if p.bothEdges.getLsbD i then p.flipEdge (hwData ty) i else p with hp₁
  have hflip : p.Served i true p₁ := by
    rw [hp₁]
    split_ifs
    · exact p.served_flipEdge _ i i
    · exact p.served_self i
  refine Code.returns_bind (returns_modifyPort hs hflip.fixed) fun _ s₁ hs₁ => ?_
  refine Code.returns_bind (returns_irqHandle hs₁ hi) fun ret s₂ hs₂ => ?_
  obtain ⟨hret, hs₂⟩ := hs₂
  -- the last update of the port, which depends on the answer
  have hlast : ∀ {f : Port → Port} {stuck : Bool}, p₁.Served i stuck (f p₁) →
      Code.Returns (modifyPort n f) s₂ fun _ s' =>
        ∃ q, s'.PortReady env n handlers q ∧ p.Served i stuck q := by
    intro f stuck hf
    refine (returns_modifyPort hs₂ hf.fixed).imp fun _ s' hs' => ⟨f p₁, hs', ?_⟩
    have hboth := hflip.trans hf
    rwa [Bool.true_and] at hboth
  rcases hret with ⟨hsome, rfl | rfl⟩ | ⟨hnone, rfl⟩
  · rw [hsome, Bool.and_false]
    exact hlast (p₁.served_irqAck i)
  · rw [hsome, Bool.and_false]
    exact hlast (p₁.served_passIrq i)
  · rw [hnone, Bool.and_true, ← hflip.mask]
    apply hlast
    split_ifs with hsecured
    · rw [hsecured]
      exact p₁.served_self i
    · rw [Bool.eq_false_iff.mpr hsecured]
      exact p₁.served_passIrq i

/-- A loop over different pins leaves those of them pending that are secured and have no
handler. -/
theorem returns_serveAll {is : List Nat} (hs : s.PortReady env n handlers p)
    (hlt : ∀ i ∈ is, i < 32) (hnodup : is.Nodup) :
    Code.Returns (Code.forEach (mxcGpioServe n) is) s fun _ s' =>
      ∃ q, s'.PortReady env n handlers q ∧ q.secureMask = p.secureMask ∧
        ∀ j, q.pending.getLsbD j = (p.pending.getLsbD j &&
          (!decide (j ∈ is) || (p.secureMask.getLsbD j && (handlers j).isNone))) := by
  induction is generalizing s p with
  | nil =>
    refine ⟨[], (), s, Code.runs_forEach_nil.mpr ⟨rfl, rfl⟩, p, hs, rfl, fun j => ?_⟩
    simp
  | cons i is ih =>
    obtain ⟨hi, hnodup⟩ := List.nodup_cons.mp hnodup
    refine Code.returns_bind (returns_mxcGpioServe hs (hlt i List.mem_cons_self)) fun _ s₁ hs₁ => ?_
    obtain ⟨p₁, hs₁, hserved⟩ := hs₁
    refine (ih hs₁ (fun j hj => hlt j (List.mem_cons_of_mem _ hj)) hnodup).imp fun _ s' hs' => ?_
    obtain ⟨q, hq, hmask, hpending⟩ := hs'
    refine ⟨q, hq, hmask.trans hserved.mask, fun j => ?_⟩
    rw [hpending j, hserved.pending j, hserved.mask]
    by_cases hji : j = i
    · subst hji
      simp [hi]
    · simp [hji]

/-- The end of the handler. -/
theorem returns_mxcGpioRaise (hs : s.PortReady env n handlers p) :
    Code.Returns (mxcGpioRaise env n) s fun _ s' => s'.PortReady env n handlers p := by
  rw [mxcGpioRaise]
  apply Code.returns_get_bind
  rw [hs.port]
  apply Code.returns_runIf _ fun _ => hs
  intro _
  refine Code.returns_bind (P := fun _ s' => s'.PortReady env n handlers p) ?_ fun _ s' hs' =>
    Code.returns_pure hs'
  obtain ⟨hnum, hasserts⟩ := hs.pass
  rw [irqRaise, irqCheckValid, Code.bind_assoc_eq]
  apply Code.returns_get_bind
  apply Code.returns_require_bind hnum
  cases hchip : p.irqPass.chip with
  | gpio m => exact Code.returns_pure hs
  | gic | gpc =>
    refine ⟨[], 0, { s with gic := s.gic.itSetPending p.irqPass.irq }, ?_,
      hs.congr rfl rfl rfl hs.port rfl⟩
    rw [gicOpRaise, runs_kassert_bind, modifyGic, Code.runs_modify_bind, Code.runs_pure]
    exact ⟨fun ha => hasserts ha (by simp [hchip]), rfl, rfl, rfl⟩

/-- The handler of a port. -/
theorem returns_mxcGpioIrqHandler (hs : s.PortReady env n handlers p) (irqStat : Word) :
    Code.Returns (mxcGpioIrqHandler env n irqStat) s fun _ s' =>
      ∃ q, s'.PortReady env n handlers q ∧ q.secureMask = p.secureMask ∧
        ∀ j, q.pending.getLsbD j = (p.pending.getLsbD j &&
          (!irqStat.getLsbD j || (p.secureMask.getLsbD j && (handlers j).isNone))) := by
  rw [mxcGpioIrqHandler]
  have hlt : ∀ i ∈ irqOffsets irqStat, i < 32 := fun i hi => BitVec.lt_of_getLsbD (mem_setBits.mp hi)
  refine Code.returns_bind (returns_serveAll hs hlt (setBits_nodup irqStat)) fun _ s₁ hs₁ => ?_
  obtain ⟨q, hs₁, hmask, hpending⟩ := hs₁
  refine (returns_mxcGpioRaise hs₁).imp fun _ s' hs' => ⟨q, hs', hmask, fun j => ?_⟩
  rw [hpending j, irqOffsets_eq]
  have hmem : decide (j ∈ setBits irqStat) = irqStat.getLsbD j := by
    rw [Bool.eq_iff_iff, decide_eq_true_iff, mem_setBits]
  rw [hmem]

end

end SeCloak
