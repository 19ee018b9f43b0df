import SeCloak.Drivers.GpioPins
import SeCloak.Drivers.GpioServe
import SeCloak.Emulation.Acknowledge

/-!
# Interrupts that stay pending

A pin that is secured and has no handler is neither acknowledged nor masked when its interrupt is
taken. The drivers mask such a pin, but the non-secure world may unmask it: a store to `IMR` is
allowed as long as it sets the bits of all secured pins. In every state that the calls on a port,
the aborts and the interrupts themselves lead to, the handler returns and serves each pending pin
once, and all of them are acknowledged or masked afterwards exactly if the secured ones have a
handler (`handler_quiesces_iff`).
-/

namespace SeCloak
open Misc

/-! ## Steps -/

/-- What happens to a port: a call of a driver, an abort of the non-secure world, a signal at its
pins that sets `ISR` and `PSR`, or an interrupt. -/
inductive PortAct where
  | call (c : PinCall)
  | abort (ctx : NsecCtx) (status pa ia : Word)
  | signal (isr psr : Word)
  | interrupt

/-- A handler that is added exists. -/
def PinCall.Adds (s : Sys) : PinCall → Prop
  | .add _ _ h => h.Exists s
  | _ => True

/-- The pins after a signal. -/
def Port.signal (isr psr : Word) (p : Port) : Port :=
  { p with regs := { p.regs with isr := isr, psr := psr } }

/-- A step of the `n`-th port. -/
def PortStep (env : Env) (n : Nat) (s : Sys) (a : PortAct) (s' : Sys) : Prop :=
  match a with
  | .call c => c.Adds s ∧ ∃ w ok, Code.Runs (c.run env n) s w ok s'
  | .abort ctx status pa ia => ∃ w ctx', Code.Runs (emuHandle env ctx status pa ia) s w ctx' s'
  | .signal isr psr => ∃ w, Code.Runs (modifyPort n (Port.signal isr psr)) s w () s'
  | .interrupt => ∃ w r, Code.Runs (mx3GpioIrqHandler env n) s w r s'

/-- The port can take interrupts. -/
def Sys.TakesIrqs (env : Env) (n : Nat) (s : Sys) : Prop :=
  ∃ handlers p, s.PortReady env n handlers p

section

variable {env : Env} {n i : Nat} {handlers : Nat → Option Handler} {p : Port} {s s' : Sys}
  {w : List Event}

theorem takesIrqs_closed (env : Env) (n : Nat) : Code.Closed
    (Code.Preserves (Sys.TakesIrqs env n) : Sys → List Event → Sys → Prop) := Code.preserves_closed _

theorem modifyPort_takesIrqs {f : Port → Port} (hf : ∀ p, (f p).fixed = p.fixed) :
    Code.Within (modifyPort n f) (Code.Preserves (Sys.TakesIrqs env n)) := by
  intro s w u s' h hs
  obtain ⟨handlers, p, hs⟩ := hs
  exact ⟨handlers, f p, (returns_modifyPort hs (hf p)).of_runs h⟩

theorem modifyPin_takesIrqs {f : Port → Port} (hf : ∀ p, (f p).fixed = p.fixed) :
    Code.Within (modifyPin n i f) (Code.Preserves (Sys.TakesIrqs env n)) := by
  have hclosed := takesIrqs_closed env n
  refine Code.within_bind hclosed (Code.within_require hclosed _) fun _ => ?_
  exact Code.within_bind hclosed (modifyPort_takesIrqs hf) fun _ => Code.within_pure hclosed _

/-- A handler that exists is put into the table of the port, or one is taken out. -/
theorem setHandler_takesIrqs {handler : Option Handler} {u : Unit}
    (hexist : ∀ h, handler = some h → h.Exists s) (hs : s.TakesIrqs env n)
    (h : Code.Runs (setHandler ⟨.gpio n, i⟩ handler) s w u s') : s'.TakesIrqs env n := by
  obtain ⟨handlers, p, hs⟩ := hs
  rw [setHandler, Code.runs_get_bind] at h
  simp only [hs.chip, Code.runs_modify] at h
  obtain ⟨-, rfl⟩ := h
  refine ⟨Function.update handlers i handler, p, hs.hwtype, hs.port, Function.update_self _ _ _, ?_, ?_⟩
  · intro j hj x hx
    apply Handler.Exists.congr (s := s) _ rfl
    by_cases hji : j = i
    · subst hji
      rw [Function.update_self] at hx
      exact hexist x hx
    · rw [Function.update_of_ne hji] at hx
      exact hs.exist j hj x hx
  · obtain ⟨hnum, hasserts⟩ := hs.pass
    refine ⟨?_, hasserts⟩
    by_cases hchip : p.irqPass.chip = .gpio n
    · rw [hchip] at hnum ⊢
      rw [hs.chip] at hnum
      simpa using hnum
    · simpa [Function.update_of_ne hchip] using hnum

theorem irqCheckValid_takesIrqs (d : IrqDesc) :
    Code.Within (irqCheckValid d) (Code.Preserves (Sys.TakesIrqs env n)) := by
  have hclosed := takesIrqs_closed env n
  refine Code.within_bind hclosed (Code.within_get hclosed) fun s => ?_
  exact Code.within_require hclosed _

theorem gpioAcquire_takesIrqs (o : Bool) :
    Code.Within (gpioAcquire n i o) (Code.Preserves (Sys.TakesIrqs env n)) := by
  have hclosed := takesIrqs_closed env n
  refine Code.within_bind hclosed (Code.within_require hclosed _) fun _ => ?_
  refine Code.within_bind hclosed (Code.within_get hclosed) fun s => ?_
  cases s.gpio.port n with
  | none => exact Code.within_throw _
  | some p =>
    apply Code.within_ite (Code.within_pure hclosed _)
    exact Code.within_bind hclosed (modifyPort_takesIrqs fun _ => rfl) fun _ =>
      Code.within_pure hclosed _

theorem gpioRelease_takesIrqs :
    Code.Within (gpioRelease n i) (Code.Preserves (Sys.TakesIrqs env n)) := by
  have hclosed := takesIrqs_closed env n
  refine Code.within_bind hclosed (Code.within_require hclosed _) fun _ => ?_
  refine Code.within_bind hclosed (Code.within_get hclosed) fun s => ?_
  cases s.gpio.port n with
  | none => exact Code.within_throw _
  | some p =>
    apply Code.within_ite _ (Code.within_pure hclosed _)
    exact Code.within_bind hclosed (modifyPort_takesIrqs fun _ => rfl) fun _ =>
      Code.within_pure hclosed _

theorem irqAdd_takesIrqs {flags : Word} {handler : Handler} {r : Int} (hexist : handler.Exists s)
    (h : Code.Runs (irqAdd env ⟨.gpio n, i⟩ flags handler) s w r s') (hs : s.TakesIrqs env n) :
    s'.TakesIrqs env n := by
  obtain ⟨-, h⟩ := irqCheckValid_bind.mp h
  obtain ⟨_, _, s₁, _, h₁, h₂, -⟩ := Code.runs_bind.mp h
  have hset : s₁.TakesIrqs env n := by
    refine setHandler_takesIrqs (fun x hx => ?_) hs h₁
    obtain rfl := Option.some.inj hx
    exact hexist
  have hclosed := takesIrqs_closed env n
  refine Code.within_bind hclosed (Code.within_get hclosed) (fun s => ?_) h₂ hset
  cases s.gpio.hwtype with
  | none => exact Code.within_throw _
  | some ty => exact modifyPin_takesIrqs fun p => p.fixed_irqOpAdd _ _ _

theorem irqRemove_takesIrqs :
    Code.Within (irqRemove ⟨.gpio n, i⟩) (Code.Preserves (Sys.TakesIrqs env n)) := by
  have hclosed := takesIrqs_closed env n
  refine Code.within_bind hclosed (irqCheckValid_takesIrqs _) fun _ => ?_
  refine Code.within_bind hclosed (modifyPin_takesIrqs fun _ => rfl) fun error => ?_
  refine Code.within_bind hclosed (Code.within_runIf hclosed ?_) fun _ => Code.within_pure hclosed _
  intro s w u s' h hs
  exact setHandler_takesIrqs (fun x hx => by cases hx) hs h

/-- An operation of the chip on a pin, through a descriptor. -/
theorem pinOp_takesIrqs {f : Port → Port} (hf : ∀ p, (f p).fixed = p.fixed) :
    Code.Within (irqCheckValid ⟨.gpio n, i⟩ >>= fun _ => modifyPin n i f)
      (Code.Preserves (Sys.TakesIrqs env n)) :=
  Code.within_bind (takesIrqs_closed env n) (irqCheckValid_takesIrqs _) fun _ =>
    modifyPin_takesIrqs hf

/-- A call on the port. -/
theorem pinCall_takesIrqs {c : PinCall} {ok : Bool} (hadds : c.Adds s)
    (h : Code.Runs (c.run env n) s w ok s') (hs : s.TakesIrqs env n) : s'.TakesIrqs env n := by
  have hclosed := takesIrqs_closed env n
  -- a call of the interrupt chip, and whether it succeeded
  have hcall : ∀ {m : Kernel Int}, Code.Within m (Code.Preserves (Sys.TakesIrqs env n)) →
      Code.Within (do
        let r ← m
        pure (decide (r = 0)) : Kernel Bool) (Code.Preserves (Sys.TakesIrqs env n)) :=
    fun hm => Code.within_bind hclosed hm fun _ => Code.within_pure hclosed _
  cases c with
  | acquire pin isOutput => exact gpioAcquire_takesIrqs isOutput h hs
  | release pin => exact gpioRelease_takesIrqs h hs
  | add pin flags handler =>
    obtain ⟨_, r, _, _, h₁, h₂, -⟩ := Code.runs_bind.mp h
    obtain ⟨-, -, rfl⟩ := Code.runs_pure.mp h₂
    exact irqAdd_takesIrqs hadds h₁ hs
  | remove pin => exact hcall irqRemove_takesIrqs h hs
  | secure pin => exact hcall (pinOp_takesIrqs (f := (·.irqOpSecure pin)) fun _ => rfl) h hs
  | unsecure pin => exact hcall (pinOp_takesIrqs (f := (·.irqOpUnsecure pin)) fun _ => rfl) h hs
  | enable pin => exact hcall (pinOp_takesIrqs (f := (·.irqMask pin false)) fun _ => rfl) h hs
  | disable pin => exact hcall (pinOp_takesIrqs (f := (·.irqMask pin true)) fun _ => rfl) h hs

theorem emuHandle_takesIrqs {ctx ctx' : NsecCtx} {status pa ia : Word}
    (h : Code.Runs (emuHandle env ctx status pa ia) s w ctx' s') (hs : s.TakesIrqs env n) :
    s'.TakesIrqs env n := by
  obtain ⟨handlers, p, hs⟩ := hs
  obtain ⟨hbus, -, -⟩ := emuHandle_frame h
  have hfixed := hbus.fixed n
  rw [hs.port, Option.map_some] at hfixed
  obtain ⟨q, hq, hqp⟩ := Option.map_eq_some_iff.mp hfixed
  refine ⟨handlers, q, hs.congr ?_ ?_ ?_ hq hqp⟩
  all_goals rw [hbus.rest]

theorem interrupt_takesIrqs {r : IrqReturn} (h : Code.Runs (mx3GpioIrqHandler env n) s w r s')
    (hs : s.TakesIrqs env n) : s'.TakesIrqs env n := by
  obtain ⟨handlers, p, hs⟩ := hs
  obtain ⟨_, irqStat, s₁, _, h₁, h₂, -⟩ := Code.runs_bind.mp h
  obtain ⟨_, _, s₂, _, h₂, h₃, -⟩ := Code.runs_bind.mp h₂
  obtain ⟨-, -, rfl⟩ := Code.runs_pure.mp h₃
  have hsame : s₁ = s := by
    rw [mx3GpioIrqStat, Code.runs_get_bind] at h₁
    obtain ⟨ty, hty⟩ := Option.isSome_iff_exists.mp hs.hwtype
    simp only [hty, hs.port, Code.runs_pure] at h₁
    exact h₁.2.2
  subst hsame
  obtain ⟨q, hq, -⟩ := (returns_mxcGpioIrqHandler hs irqStat).of_runs h₂
  exact ⟨handlers, q, hq⟩

theorem portStep_takesIrqs {a : PortAct} (h : PortStep env n s a s') (hs : s.TakesIrqs env n) :
    s'.TakesIrqs env n := by
  cases a with
  | call c =>
    obtain ⟨hadds, w, ok, hrun⟩ := h
    exact pinCall_takesIrqs hadds hrun hs
  | abort ctx status pa ia =>
    obtain ⟨w, ctx', hrun⟩ := h
    exact emuHandle_takesIrqs hrun hs
  | signal isr psr =>
    obtain ⟨w, hrun⟩ := h
    exact modifyPort_takesIrqs (f := Port.signal isr psr) (fun _ => rfl) hrun hs
  | interrupt =>
    obtain ⟨w, r, hrun⟩ := h
    exact interrupt_takesIrqs hrun hs

end

/-- A port that was probed can take interrupts, if there was memory for its table and the interrupt
that it raises is one of the distributor. -/
theorem mxcGpioSetup_takesIrqs {env : Env} {n : Nat} {hwtype : HwType} {firstPort : Bool}
    {port : Port} {size : Word} {s s' : Sys} {w : List Event} {r : Int}
    (h : Code.Runs (mxcGpioSetup env n hwtype firstPort port size) s w r s')
    (hhw : s.gpio.hwtype.isSome = true) (hmalloc : ∀ k, env.malloc k = true)
    (hpass : s'.Raises env port.irqPass) : s'.TakesIrqs env n := by
  obtain ⟨s₁, w₁, hirq, hreg⟩ := mxcGpioSetup_stages h
  obtain ⟨_, _, s₂, _, h₂, h₃, -⟩ := Code.runs_bind.mp hreg
  obtain ⟨-, hs₂⟩ := emuAddRegion_runs h₂
  have hport : (s₁.gpio.port n).map Port.fixed = some port.fixed := by
    rw [hirq.fixed n]
    simp
  obtain ⟨p, hp, hfixed⟩ := Option.map_eq_some_iff.mp hport
  cases hcsu : port.dev.info.csu with
  | nil => simp [hcsu] at h₃
  | cons c cs =>
    simp only [hcsu] at h₃
    obtain ⟨_, _, s₃, _, h₃, h₄, -⟩ := Code.runs_bind.mp h₃
    obtain ⟨-, -, hs₃, -⟩ := csuSetCsl_runs h₃
    obtain ⟨_, _, s₄, _, h₄, h₅, -⟩ := Code.runs_bind.mp h₄
    rw [irqConstructChip, runs_malloc_bind, hmalloc, Code.runs_modify_bind, Code.runs_pure] at h₄
    obtain ⟨-, -, rfl⟩ := h₄
    rw [Code.runs_modify_bind, Code.runs_pure] at h₅
    obtain ⟨-, -, rfl⟩ := h₅
    have hgpio : s₃.gpio = s₁.gpio := by rw [hs₃, hs₂]
    have hsame : p.irqPass = port.irqPass := congrArg (fun x => x.2.2.2.2.2) hfixed
    refine ⟨fun _ => none, p, ?_, ?_, Function.update_self _ _ _, ?_, ?_⟩
    · change s₃.gpio.hwtype.isSome = true
      rw [hgpio, hirq.rest]
      exact hhw
    · change s₃.gpio.port n = some p
      rw [hgpio]
      exact hp
    · intro i _ x hx
      cases hx
    · rw [hsame]
      exact hpass

/-- The handler of the `i`-th pin of a port. -/
def Sys.pinHandler? (s : Sys) (n i : Nat) : Option Handler :=
  (s.chip (.gpio n)).handlers.bind (· i)

/-- Whether a port can take interrupts, by evaluation. -/
theorem takesIrqs_of_check {env : Env} {n : Nat} {s : Sys} (hhw : s.gpio.hwtype.isSome = true)
    (hnum : (s.chip (.gpio n)).numIrqs = 32) (hdefault : (s.chip (.gpio n)).defaultHandler = true)
    (htable : (s.chip (.gpio n)).handlers.isSome = true)
    (hexist : ∀ i < 32, (s.pinHandler? n i).all (fun h => decide (h.Exists s)) = true)
    (hpass : (s.gpio.port n).any (fun p => decide (s.Raises env p.irqPass)) = true) :
    s.TakesIrqs env n := by
  obtain ⟨handlers, htab⟩ := Option.isSome_iff_exists.mp htable
  obtain ⟨p, hp, hraises⟩ := (Option.any_eq_true _ _).mp hpass
  refine ⟨handlers, p, hhw, hp, ?_, fun i hi h hh => ?_, of_decide_eq_true hraises⟩
  · rw [← hnum, ← hdefault, ← htab]
  · have hall := hexist i hi
    rw [Sys.pinHandler?, htab, Option.bind_some, hh, Option.all_some] at hall
    exact of_decide_eq_true hall

/-! ## The pending pins after an interrupt -/

/-- In every state that a run leads to, the handler returns, serves each pending pin once, and
leaves each of them acknowledged or masked exactly if those that are secured have a handler. -/
theorem handler_quiesces_iff {env : Env} {n : Nat} {s₀ s : Sys} {as : List PortAct}
    (h₀ : s₀.TakesIrqs env n) (h : Steps (PortStep env n) s₀ as s) :
    ∃ p, s.gpio.port n = some p ∧ (irqOffsets p.pending).Nodup ∧
      (∀ i, i ∈ irqOffsets p.pending ↔
        p.regs.isr.getLsbD i = true ∧ p.regs.imr.getLsbD i = true) ∧
      mxcGpioLoop n p.pending = Code.forEach (mxcGpioServe n) (irqOffsets p.pending) ∧
      ∃ w s' q, Code.Runs (mxcGpioIrqHandler env n (p.regs.isr &&& p.regs.imr)) s w () s' ∧
        s'.gpio.port n = some q ∧
        ((∀ i ∈ irqOffsets p.pending,
            q.regs.isr.getLsbD i = false ∨ q.regs.imr.getLsbD i = false) ↔
          ∀ i ∈ irqOffsets p.pending, p.secureMask.getLsbD i = true →
            (s.pinHandler? n i).isSome = true) := by
  have hs : s.TakesIrqs env n := h.invariant (fun a _ _ _ hstep => portStep_takesIrqs hstep) h₀
  obtain ⟨handlers, p, hs⟩ := hs
  refine ⟨p, hs.port, setBits_nodup _, fun i => ?_, mxcGpioLoop_eq n _, ?_⟩
  · rw [irqOffsets_eq, mem_setBits, p.getLsbD_pending, Bool.and_eq_true]
  obtain ⟨w, u, s', hrun, q, hq, -, hpending⟩ := returns_mxcGpioIrqHandler hs p.pending
  refine ⟨w, s', q, hrun, hq.port, ?_⟩
  refine forall₂_congr fun i hi => ?_
  have hbit : p.pending.getLsbD i = true := mem_setBits.mp hi
  have hhandler : s.pinHandler? n i = handlers i := by
    rw [Sys.pinHandler?, hs.chip]
    rfl
  have hleft : q.pending.getLsbD i = (p.secureMask.getLsbD i && (handlers i).isNone) := by
    rw [hpending i, hbit]
    rfl
  rw [← Bool.and_eq_false_iff, ← q.getLsbD_pending, hleft, hhandler]
  cases p.secureMask.getLsbD i <;> cases handlers i <;> simp

namespace Board

/-- An output pin is acquired, the non-secure world enables all interrupts of the port, and the
interrupt of the pin is latched. -/
def outputAcquired : Sys := ((PinCall.acquire 7 true).run imx6 0).after armed
def outputUnmasked : Sys := (trap 0x0209C014).after outputAcquired
def outputPending : Sys := (modifyPort 0 (Port.signal 0x80 0)).after outputUnmasked

/-- The first port, with its three interrupts, after `mxc_gpio_setup` behind the distributor. -/
def portOne : Port where
  dev := gpio1
  pbase := 0x0209C000
  base := 0x51F9C000
  irq := ⟨.gic, 98⟩
  irqHigh := some ⟨.gic, 99⟩
  irqPass := ⟨.gic, 100⟩

def hwKnown : Sys :=
  (mxcGpioGetHw .imx35).after ((gicProbe imx6 gic 159).after (resetWithInstr 0xE5810000))

def portUp : Sys := (mxcGpioSetup imx6 0 .imx35 true portOne 0x4000).after hwKnown

/-- The non-secure world enables all interrupts of the port, and one is latched. -/
def portUnmasked : Sys := (trap 0x0209C014).after portUp
def portPending : Sys := (modifyPort 0 (Port.signal 0x20 0)).after portUnmasked

theorem portUp_takesIrqs : portUp.TakesIrqs imx6 0 := by
  obtain ⟨_, hrun⟩ := Code.runs_after (m := mxcGpioSetup imx6 0 .imx35 true portOne 0x4000)
    (s := hwKnown) (by decide +kernel)
  exact mxcGpioSetup_takesIrqs hrun (by decide +kernel) (fun _ => rfl) (by decide +kernel)

theorem portPending_steps : Steps (PortStep imx6 0) portUp
    [.abort (ctxWith 0xFFFFFFFF) 0x008 0x0209C014 0x10000000, .signal 0x20 0] portPending := by
  obtain ⟨_, hstore⟩ := Code.runs_after (m := trap 0x0209C014) (s := portUp) (by decide +kernel)
  obtain ⟨_, hsignal⟩ := Code.runs_after (m := modifyPort 0 (Port.signal 0x20 0)) (s := portUnmasked)
    (by decide +kernel)
  exact .cons ⟨_, _, hstore⟩ (.cons ⟨_, hsignal⟩ (.nil _))

theorem armed_takesIrqs : armed.TakesIrqs imx6 0 :=
  takesIrqs_of_check (by decide +kernel) (by decide +kernel) (by decide +kernel) (by decide +kernel)
    (by decide +kernel) (by decide +kernel)

theorem step_signal {isr : Word} {s s' : Sys} (hs : s' = (modifyPort 0 (Port.signal isr 0)).after s)
    (h : (modifyPort 0 (Port.signal isr 0)).succeeds s = true) :
    PortStep imx6 0 s (.signal isr 0) s' := by
  obtain ⟨_, hrun⟩ := Code.runs_after h
  rw [hs]
  exact ⟨_, hrun⟩

end Board

/-- An interrupt that the non-secure world has enabled on a port that was just set up. -/
theorem handler_quiesces_iff_passed :
    ∃ p, Board.portPending.gpio.port 0 = some p ∧ (irqOffsets p.pending).Nodup ∧
      (∀ i, i ∈ irqOffsets p.pending ↔
        p.regs.isr.getLsbD i = true ∧ p.regs.imr.getLsbD i = true) ∧
      mxcGpioLoop 0 p.pending = Code.forEach (mxcGpioServe 0) (irqOffsets p.pending) ∧
      ∃ w s' q, Code.Runs (mxcGpioIrqHandler imx6 0 (p.regs.isr &&& p.regs.imr)) Board.portPending w
          () s' ∧ s'.gpio.port 0 = some q ∧
        ((∀ i ∈ irqOffsets p.pending,
            q.regs.isr.getLsbD i = false ∨ q.regs.imr.getLsbD i = false) ↔
          ∀ i ∈ irqOffsets p.pending, p.secureMask.getLsbD i = true →
            (Board.portPending.pinHandler? 0 i).isSome = true) :=
  handler_quiesces_iff Board.portUp_takesIrqs Board.portPending_steps

/-- A pin is acquired as an output, which masks its interrupt; the non-secure world enables all
interrupts of the port; and the interrupt that is latched then is still pending after the handler
has returned. -/
theorem acquired_pin_stays_pending :
    Board.armed.TakesIrqs imx6 0 ∧
      Steps (PortStep imx6 0) Board.armed
        [.call (.acquire 7 true), .abort (ctxWith 0xFFFFFFFF) 0x008 0x0209C014 0x10000000,
          .signal 0x80 0] Board.outputPending ∧
      .write (imx6.data.access 0x0209C014 4) 0xFFFFFFFF ∈
        (Board.trap 0x0209C014 Board.outputAcquired).events ∧
      (Board.outputPending.gpio.port 0).map Port.pending = some 0x80 ∧
      (mx3GpioIrqHandler imx6 0).succeeds Board.outputPending = true ∧
      (((mx3GpioIrqHandler imx6 0).after Board.outputPending).gpio.port 0).map Port.pending =
        some 0x80 := by
  have hacquire : PortStep imx6 0 Board.armed (.call (.acquire 7 true)) Board.outputAcquired := by
    obtain ⟨ok, hrun⟩ :=
      Code.runs_after (m := (PinCall.acquire 7 true).run imx6 0) (s := Board.armed) (by decide +kernel)
    exact ⟨trivial, _, ok, hrun⟩
  have hstore : PortStep imx6 0 Board.outputAcquired
      (.abort (ctxWith 0xFFFFFFFF) 0x008 0x0209C014 0x10000000) Board.outputUnmasked := by
    obtain ⟨ctx', hrun⟩ :=
      Code.runs_after (m := Board.trap 0x0209C014) (s := Board.outputAcquired) (by decide +kernel)
    exact ⟨_, ctx', hrun⟩
  have hsignal : PortStep imx6 0 Board.outputUnmasked (.signal 0x80 0) Board.outputPending :=
    Board.step_signal rfl (by decide +kernel)
  have hmade := mem_of_stored (w := (Board.trap 0x0209C014 Board.outputAcquired).events)
    (a := imx6.data.access 0x0209C014 4) (v := 0xFFFFFFFF) (by decide +kernel)
  exact ⟨Board.armed_takesIrqs, .cons hacquire (.cons hstore (.cons hsignal (.nil _))), hmade,
    by decide +kernel, by decide +kernel, by decide +kernel⟩

end SeCloak
