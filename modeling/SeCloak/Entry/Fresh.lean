import Mathlib.Data.List.ReduceOption
import SeCloak.Drivers.GpioIrq
import SeCloak.Entry.EntryProps
import SeCloak.Kernel.Boot
import SeCloak.Misc.Steps

/-!
# A confirmation with interrupts (`entry.c:195-290`, `imx_gpio.c:500-545`)

`cloak_entry_set` runs on one core while pins change their levels and any core takes the interrupts
of a GPIO port. The handler of a button runs on both edges, so the release of a key that was held
when the dialog opened counts as a press of it. `applied_fresh` says when settings are applied only
after the key was pressed anew.
-/

namespace SeCloak
open Misc

/-! ## The thread of `cloak_entry_set` -/

/-- Where the thread is. -/
inductive SetPc where
  | idle
  | enter (a1 : Word)
  /-- `goto err_lock` -/
  | refused
  | acquireFb (a1 : Word)
  | acquireKeys (a1 : Word) (fb : FbInfo)
  | draw (a1 : Word) (fb : FbInfo)
  /-- before `cloak_confirm_status = CLOAK_CONFIRM_NONE` -/
  | reset (a1 : Word) (fb : FbInfo) (classes : List (CString × Bool))
  | wait (a1 : Word) (fb : FbInfo) (classes : List (CString × Bool))
  /-- after the loop, before the second read of the status -/
  | answered (a1 : Word) (fb : FbInfo) (classes : List (CString × Bool))
  | apply (a1 : Word) (fb : FbInfo) (classes : List (CString × Bool))
  | deny (fb : FbInfo)
  | releaseKeys (fb : FbInfo)
  | releaseFb (fb : FbInfo)
  | unlock

namespace SetPc

/-- After `fb_acquire`: `goto err_fb_acq`, or on to the keys. -/
def acquired (a1 : Word) : Option FbInfo → SetPc
  | none => unlock
  | some fb => acquireKeys a1 fb

/-- The next step of `cloak_entry_set`. -/
def run (env : Env) (t : DeviceTable) : SetPc → Kernel SetPc
  | idle => pure idle
  | enter a1 => do
    let locked ← cpuSpinTrylock
    pure (if locked then acquireFb a1 else refused)
  | refused => do
    cpuSpinUnlock env 0
    pure idle
  | acquireFb a1 => do
    let fb ← fbAcquire env 0xFF 0xFF 0xFF
    pure (acquired a1 fb)
  | acquireKeys a1 fb => do
    let ok ← gpioKeysAcquire env .cloak
    pure (if ok then draw a1 fb else releaseFb fb)
  | draw a1 fb => do
    fbBlitAll env fb displayStatic
    let classes ← cloakBlitClasses env fb a1 cloakClasses
    cloakBlitRest env fb a1
    pure (reset a1 fb classes)
  | reset a1 fb classes => do
    Code.modify fun s => { s with cloak := { s.cloak with confirmStatus := .none } }
    pure (wait a1 fb classes)
  | wait a1 fb classes => do
    let s ← Code.get
    pure (if s.cloak.confirmStatus = .none then wait a1 fb classes else answered a1 fb classes)
  | answered a1 fb classes => do
    let s ← Code.get
    pure (if s.cloak.confirmStatus = .allow then apply a1 fb classes else deny fb)
  | apply a1 fb classes => do
    cloakApply env t classes
    Code.modify fun s => { s with cloak := { s.cloak with prevSettings := a1 } }
    fbClear fb 0x00 0xFF 0x00
    pure (releaseKeys fb)
  | deny fb => do
    fbClear fb 0xFF 0x00 0x00
    pure (releaseKeys fb)
  | releaseKeys fb => do
    gpioKeysRelease .cloak
    pure (releaseFb fb)
  | releaseFb fb => do
    fbRelease env fb
    pure unlock
  | unlock => do
    cpuSpinUnlock env 1
    pure idle

def resets : SetPc → Bool
  | reset .. => true
  | _ => false

/-- Between the reset of the status and the decision. -/
def waits : SetPc → Bool
  | wait .. | answered .. => true
  | _ => false

def applies : SetPc → Bool
  | apply .. => true
  | _ => false

/-- The dialog is entered through the reset of the status, and left through the decision. -/
theorem run_outside {env : Env} {t : DeviceTable} {pc pc' : SetPc} {s s' : Sys} {w : List Event}
    (hreset : pc.resets = false) (hwait : pc.waits = false)
    (h : Code.Runs (pc.run env t) s w pc' s') : pc'.waits = false ∧ pc'.applies = false := by
  cases pc with
  | idle =>
    obtain ⟨-, rfl, -⟩ := Code.runs_pure.mp h
    exact ⟨rfl, rfl⟩
  | enter a1 =>
    obtain ⟨_, locked, _, _, -, h, -⟩ := Code.runs_bind.mp h
    obtain ⟨-, rfl, -⟩ := Code.runs_pure.mp h
    cases locked <;> exact ⟨rfl, rfl⟩
  | acquireFb a1 =>
    obtain ⟨_, fb, _, _, -, h, -⟩ := Code.runs_bind.mp h
    obtain ⟨-, rfl, -⟩ := Code.runs_pure.mp h
    cases fb <;> exact ⟨rfl, rfl⟩
  | acquireKeys a1 fb =>
    obtain ⟨_, ok, _, _, -, h, -⟩ := Code.runs_bind.mp h
    obtain ⟨-, rfl, -⟩ := Code.runs_pure.mp h
    cases ok <;> exact ⟨rfl, rfl⟩
  | draw a1 fb =>
    obtain ⟨_, _, _, _, -, h, -⟩ := Code.runs_bind.mp h
    obtain ⟨_, _, _, _, -, h, -⟩ := Code.runs_bind.mp h
    obtain ⟨_, _, _, _, -, h, -⟩ := Code.runs_bind.mp h
    obtain ⟨-, rfl, -⟩ := Code.runs_pure.mp h
    exact ⟨rfl, rfl⟩
  | reset a1 fb classes => cases hreset
  | wait a1 fb classes => cases hwait
  | answered a1 fb classes => cases hwait
  | apply a1 fb classes =>
    obtain ⟨_, _, _, _, -, h, -⟩ := Code.runs_bind.mp h
    obtain ⟨_, _, _, _, -, h, -⟩ := Code.runs_bind.mp h
    obtain ⟨_, _, _, _, -, h, -⟩ := Code.runs_bind.mp h
    obtain ⟨-, rfl, -⟩ := Code.runs_pure.mp h
    exact ⟨rfl, rfl⟩
  | refused | deny fb | releaseKeys fb | releaseFb fb | unlock =>
    obtain ⟨_, _, _, _, -, h, -⟩ := Code.runs_bind.mp h
    obtain ⟨-, rfl, -⟩ := Code.runs_pure.mp h
    exact ⟨rfl, rfl⟩

/-- A step of the thread, or a press while it waits. -/
def Step (env : Env) (t : DeviceTable) (x : SetPc × Sys) (press : Option Word) (y : SetPc × Sys) :
    Prop :=
  match press with
  | none => ∃ w, Code.Runs (x.1.run env t) x.2 w y.1 y.2
  | some code => x.1.waits = true ∧ y.1 = x.1 ∧ ∃ w r, Code.Runs (gpioKeysHandler code) x.2 w r y.2

section Steps

variable {env : Env} {t : DeviceTable} {presses : List Word} {a1 : Word} {fb : FbInfo}
  {classes : List (CString × Bool)} {s s' : Sys} {w : List Event}

theorem step_bind {α : Type} {pc : SetPc} {m : Kernel α} {f : α → SetPc} {a : α}
    (hrun : pc.run env t = m >>= fun a => pure (f a)) (h : Code.Runs m s w a s') :
    Step env t (pc, s) none (f a, s') := by
  refine ⟨w ++ [], ?_⟩
  rw [hrun]
  exact Code.runs_bind.mpr ⟨w, a, s', [], h, Code.runs_pure.mpr ⟨rfl, rfl, rfl⟩, rfl⟩

/-- The loop, with the presses it takes. -/
theorem wait_steps {u : Unit} (h : Code.Runs (cloakWait presses) s w u s') :
    ∃ as, Steps (Step env t) (wait a1 fb classes, s) as (answered a1 fb classes, s') ∧
      as.reduceOption <+: presses := by
  induction presses generalizing s w with
  | nil => exact absurd h Code.runs_throw
  | cons code codes ih =>
    obtain ⟨w₁, r, s₁, w₂, h₁, h₂, -⟩ := Code.runs_bind.mp h
    have hpress : Step env t (wait a1 fb classes, s) (some code) (wait a1 fb classes, s₁) :=
      ⟨rfl, rfl, w₁, r, h₁⟩
    have hread : Step env t (wait a1 fb classes, s₁) none
        (if s₁.cloak.confirmStatus = .none then wait a1 fb classes else answered a1 fb classes, s₁) :=
      step_bind (f := fun s => if s.cloak.confirmStatus = .none then wait a1 fb classes
        else answered a1 fb classes) rfl (Code.runs_get.mpr ⟨rfl, rfl, rfl⟩)
    rw [Code.runs_get_bind, Code.runs_ite] at h₂
    by_cases hend : s₁.cloak.confirmStatus = .none
    · rw [if_pos hend] at h₂ hread
      obtain ⟨as, has, hpre⟩ := ih h₂
      refine ⟨some code :: none :: as, .cons hpress (.cons hread has), ?_⟩
      rw [List.reduceOption_cons_of_some, List.reduceOption_cons_of_none]
      exact (List.prefix_cons_inj code).mpr hpre
    · rw [if_neg hend] at h₂ hread
      obtain ⟨-, -, rfl⟩ := Code.runs_pure.mp h₂
      refine ⟨[some code, none], .cons hpress (.cons hread (.nil _)), ?_⟩
      rw [List.reduceOption_cons_of_some, List.reduceOption_cons_of_none]
      exact (List.prefix_cons_inj code).mpr List.nil_prefix

theorem answered_steps {u : Unit} (h : Code.Runs (cloakAnswered env t fb a1 classes) s w u s') :
    Steps (Step env t) (answered a1 fb classes, s) [none, none] (releaseKeys fb, s') := by
  have hread : Step env t (answered a1 fb classes, s) none
      (if s.cloak.confirmStatus = .allow then apply a1 fb classes else deny fb, s) :=
    step_bind (f := fun s => if s.cloak.confirmStatus = .allow then apply a1 fb classes
      else deny fb) rfl (Code.runs_get.mpr ⟨rfl, rfl, rfl⟩)
  rw [cloakAnswered, Code.runs_get_bind, Code.runs_ite] at h
  by_cases hallow : s.cloak.confirmStatus = .allow
  · rw [if_pos hallow] at h hread
    refine .cons hread (.cons ⟨w, ?_⟩ (.nil _))
    obtain ⟨w₁, _, s₁, w₂, h₁, h₂, rfl⟩ := Code.runs_bind.mp h
    rw [Code.runs_modify_bind] at h₂
    refine Code.runs_bind.mpr ⟨w₁, (), s₁, w₂, h₁, Code.runs_modify_bind.mpr ?_, rfl⟩
    refine Code.runs_bind.mpr ⟨w₂, (), s', [], h₂, Code.runs_pure.mpr ⟨rfl, rfl, rfl⟩, ?_⟩
    rw [List.append_nil]
  · rw [if_neg hallow] at h hread
    exact .cons hread (.cons (step_bind (f := fun _ => releaseKeys fb) rfl h) (.nil _))

theorem dialog_steps {u : Unit} (h : Code.Runs (cloakDialog env t presses fb a1) s w u s') :
    ∃ as, Steps (Step env t) (draw a1 fb, s) as (releaseFb fb, s') ∧
      as.reduceOption <+: presses := by
  obtain ⟨w₁, _, s₁, _, h₁, k₁, -⟩ := Code.runs_bind.mp h
  obtain ⟨w₂, classes, s₂, _, h₂, k₂, -⟩ := Code.runs_bind.mp k₁
  obtain ⟨w₃, _, s₃, _, h₃, k₃, -⟩ := Code.runs_bind.mp k₂
  rw [Code.runs_modify_bind] at k₃
  obtain ⟨w₄, _, s₄, _, h₄, k₄, -⟩ := Code.runs_bind.mp k₃
  obtain ⟨w₅, _, s₅, w₆, h₅, h₆, -⟩ := Code.runs_bind.mp k₄
  have hdraw : Step env t (draw a1 fb, s) none (reset a1 fb classes, s₃) := by
    refine ⟨w₁ ++ (w₂ ++ (w₃ ++ [])), Code.runs_bind.mpr ⟨w₁, (), s₁, _, h₁, ?_, rfl⟩⟩
    refine Code.runs_bind.mpr ⟨w₂, classes, s₂, _, h₂, ?_, rfl⟩
    exact Code.runs_bind.mpr ⟨w₃, (), s₃, [], h₃, Code.runs_pure.mpr ⟨rfl, rfl, rfl⟩, rfl⟩
  have hreset : Step env t (reset a1 fb classes, s₃) none (wait a1 fb classes, _) :=
    step_bind (a := ()) (f := fun _ => wait a1 fb classes) rfl (Code.runs_modify.mpr ⟨rfl, rfl⟩)
  obtain ⟨as, hwait, hpre⟩ := @wait_steps env t _ a1 fb classes _ _ _ _ h₄
  have hkeys : Step env t (releaseKeys fb, s₅) none (releaseFb fb, s') :=
    step_bind (f := fun _ => releaseFb fb) rfl h₆
  have hend := steps_append.mpr ⟨_, hwait, steps_append.mpr ⟨_, answered_steps h₅, .cons hkeys (.nil _)⟩⟩
  refine ⟨none :: none :: (as ++ ([none, none] ++ [none])), .cons hdraw (.cons hreset hend), ?_⟩
  rw [List.reduceOption_cons_of_none, List.reduceOption_cons_of_none, List.reduceOption_append]
  simpa [List.reduceOption] using hpre

/-- A run of `cloak_entry_set` is a run of its steps, with presses of keys only in the loop. -/
theorem cloakEntrySet_steps {args res : SmcArgs}
    (h : Code.Runs (cloakEntrySet env t presses args) s w res s') :
    ∃ as, Steps (Step env t) (enter args.a1, s) as (idle, s') ∧ as.reduceOption <+: presses := by
  obtain ⟨w₁, locked, s₁, w₂, h₁, h₂, -⟩ := Code.runs_bind.mp h
  have henter : Step env t (enter args.a1, s) none
      (if locked then acquireFb args.a1 else refused, s₁) :=
    step_bind (f := fun locked => if locked then acquireFb args.a1 else refused) rfl h₁
  cases locked with
  | false =>
    obtain ⟨w₃, _, s₃, w₄, h₃, h₄, -⟩ := Code.runs_bind.mp h₂
    obtain ⟨-, -, rfl⟩ := Code.runs_pure.mp h₄
    have hunlock : Step env t (refused, s₁) none (idle, s') :=
      step_bind (f := fun _ => idle) rfl h₃
    exact ⟨[none, none], .cons henter (.cons hunlock (.nil _)), List.nil_prefix⟩
  | true =>
    obtain ⟨w₃, err, s₃, w₄, h₃, h₄, -⟩ := Code.runs_bind.mp h₂
    obtain ⟨w₅, _, s₅, w₆, h₅, h₆, -⟩ := Code.runs_bind.mp h₄
    obtain ⟨-, -, rfl⟩ := Code.runs_pure.mp h₆
    have hunlock : Step env t (unlock, s₃) none (idle, s') := step_bind (f := fun _ => idle) rfl h₅
    obtain ⟨v₁, res, t₁, v₂, g₁, k₁, -⟩ := Code.runs_bind.mp h₃
    obtain ⟨fb, -, -, -, rfl, -, -⟩ := fbAcquire_runs g₁
    have hfb : Step env t (acquireFb args.a1, s₁) none (acquireKeys args.a1 fb, t₁) :=
      step_bind (f := acquired args.a1) rfl g₁
    obtain ⟨v₃, ok, t₃, v₄, g₃, k₃, -⟩ := Code.runs_bind.mp k₁
    obtain ⟨rfl, -⟩ := gpioKeysAcquire_cloak g₃
    have hkeys : Step env t (acquireKeys args.a1 fb, t₁) none (draw args.a1 fb, t₃) :=
      step_bind (a := true) (f := fun ok => if ok then draw args.a1 fb else releaseFb fb) rfl g₃
    obtain ⟨v₅, _, t₅, v₆, g₅, k₅, -⟩ := Code.runs_bind.mp k₃
    obtain ⟨v₇, _, t₇, v₈, g₇, g₈, -⟩ := Code.runs_bind.mp k₅
    obtain ⟨-, -, rfl⟩ := Code.runs_pure.mp g₈
    have hrelease : Step env t (releaseFb fb, t₅) none (unlock, s₃) :=
      step_bind (f := fun _ => unlock) rfl g₇
    rcases Code.runs_runIf.mp g₅ with ⟨-, g₅⟩ | ⟨hn, -, -⟩
    swap
    · exact absurd rfl hn
    obtain ⟨as, hdialog, hpre⟩ := dialog_steps g₅
    have hend := steps_append.mpr ⟨_, hdialog, .cons hrelease (.cons hunlock (.nil _))⟩
    refine ⟨_, .cons henter (.cons hfb (.cons hkeys hend)), ?_⟩
    rw [List.reduceOption_cons_of_none, List.reduceOption_cons_of_none,
      List.reduceOption_cons_of_none, List.reduceOption_append]
    simpa [List.reduceOption] using hpre

end Steps

end SetPc

/-! ## Pins and keys -/

/-- The code of the button that a handler belongs to. -/
def Handler.code (s : Sys) : Handler → Option Word
  | .button b => ((s.keys.bind (·.buttons)).bind (·[b]?)).map (·.code)
  | .port _ | .portHigh _ => none

/-- The HOMEPAGE button is on the pin. -/
def Sys.homePin (s : Sys) (n i : Nat) : Bool :=
  decide ((((s.chip (.gpio n)).handlers.bind (· i)).bind (·.code s)) = some keyHomepage)

/-- The pins of all HOMEPAGE buttons are at rest. -/
def Sys.PinsSettled (pressed : Nat → Nat → Bool) (s : Sys) : Prop :=
  ∀ n < s.gpio.allocated, ∀ i < 32, s.homePin n i = true →
    ∀ p ∈ s.gpio.port n, ∀ ty ∈ s.gpio.hwtype, p.Settled (hwData ty) (pressed n i) i

instance (pressed : Nat → Nat → Bool) (s : Sys) : Decidable (s.PinsSettled pressed) := by
  unfold Sys.PinsSettled
  infer_instance

/-- The button on the pin gets pressed: its pin goes to the level `pressed`. -/
def Sys.presses (s : Sys) (pressed : Bool) (n i : Nat) (level : Bool) : Bool :=
  s.homePin n i && decide (i < 32) && decide (level = pressed) &&
    decide ((s.gpio.port n).map (·.getValue i) = some (!pressed))

/-- The hardware of a pin, with the variant in use. -/
def modifyWires (n : Nat) (f : HwData → Port → Port) : Kernel Unit := do
  let s ← Code.get
  match s.gpio.hwtype with
  | none => Code.throw .undefined
  | some ty => modifyPort n (f (hwData ty))

/-- The non-secure world acknowledges interrupts that were passed to it (`imx_gpio.c:312-320`). -/
def gpioAckPassed (n : Nat) (value : Word) : Kernel Unit := do
  let s ← Code.get
  match s.gpio.port n with
  | none => Code.throw .undefined
  | some p =>
    Code.require (value &&& p.secureMask ≠ 0 ∧ value &&& p.passedIrqMask = value) .undefined
    modifyPort n fun p => (p.ackPassed value).writeIsr value

/-! ## The machine -/

/-- The thread, the handlers that run on the cores with the pins they still have to serve, and
whether HOMEPAGE was pressed since the status was reset. -/
structure Dialog (κ : Type) where
  sys : Sys
  pc : SetPc
  handler : κ → Option (Nat × List Nat)
  fresh : Bool

inductive DialogAct (κ : Type) where
  | call (a1 : Word)
  /-- the thread takes its next step -/
  | thread
  /-- a pin is driven to a level, a level lasts -/
  | level (n i : Nat) (b : Bool)
  | latch (n i : Nat)
  /-- core `k` takes the interrupt of port `n`, serves the next pin, leaves the handler -/
  | enterIrq (k : κ) (n : Nat)
  | serve (k : κ)
  | leaveIrq (k : κ)
  | ack (n : Nat) (value : Word)

namespace Dialog

variable {κ : Type} [DecidableEq κ]

/-- Continue with the state a silent piece of code leaves. -/
def wires (c : Dialog κ) (m : Kernel Unit) : Option (Dialog κ) :=
  (m.out c.sys).map fun x => { c with sys := x.2 }

def withHandler (c : Dialog κ) (k : κ) (h : Option (Nat × List Nat)) (s : Sys) : Dialog κ :=
  { c with sys := s, handler := Function.update c.handler k h }

def threadStep (env : Env) (t : DeviceTable) (c : Dialog κ) : Option (Dialog κ) :=
  ((c.pc.run env t).out c.sys).map fun x =>
    { c with pc := x.1, sys := x.2, fresh := c.fresh && !c.pc.resets }

def levelStep (pressed : Nat → Nat → Bool) (c : Dialog κ) (n i : Nat) (b : Bool) :
    Option (Dialog κ) :=
  ((modifyWires n (Port.drive · · i b)).out c.sys).map fun x =>
    { c with sys := x.2, fresh := c.fresh || c.sys.presses (pressed n i) n i b }

/-- `n` is one of the ports that were probed. -/
def enterStep (c : Dialog κ) (k : κ) (n : Nat) : Option (Dialog κ) :=
  match c.handler k with
  | some _ => none
  | none =>
    if n < c.sys.gpio.allocated then
      ((mx3GpioIrqStat n).out c.sys).map fun x =>
        c.withHandler k (some (n, irqOffsets x.1)) x.2
    else none

def serveStep (c : Dialog κ) (k : κ) : Option (Dialog κ) :=
  match c.handler k with
  | some (n, i :: rest) =>
    ((mxcGpioServe n i).out c.sys).map fun x => c.withHandler k (some (n, rest)) x.2
  | _ => none

def leaveStep (env : Env) (c : Dialog κ) (k : κ) : Option (Dialog κ) :=
  match c.handler k with
  | some (n, []) => ((mxcGpioRaise env n).out c.sys).map fun x => c.withHandler k none x.2
  | _ => none

def callStep (c : Dialog κ) (a1 : Word) : Option (Dialog κ) :=
  match c.pc with
  | .idle => some { c with pc := .enter a1 }
  | _ => none

/-- `pressed n i` is the level at which the button on the pin is pressed; the code does not look
at it. -/
def step (env : Env) (t : DeviceTable) (pressed : Nat → Nat → Bool) (c : Dialog κ) :
    DialogAct κ → Option (Dialog κ)
  | .call a1 => c.callStep a1
  | .thread => c.threadStep env t
  | .level n i b => c.levelStep pressed n i b
  | .latch n i => c.wires (modifyWires n (Port.latch · · i))
  | .enterIrq k n => c.enterStep k n
  | .serve k => c.serveStep k
  | .leaveIrq k => c.leaveStep env k
  | .ack n value => c.wires (gpioAckPassed n value)

/-- Every HOMEPAGE button is released, with no interrupt of it latched, about to be latched, or
still to be served. -/
structure Rested (pressed : Nat → Nat → Bool) (c : Dialog κ) : Prop where
  pins : c.sys.PinsSettled pressed
  served : ∀ k, ∀ h ∈ c.handler k, ∀ i ∈ h.2, c.sys.homePin h.1 i = false

end Dialog

/-! ## Handlers that press no HOMEPAGE button -/

/-- What an interrupt of another pin may change. -/
structure IrqStep (pressed : Nat → Nat → Bool) (s s' : Sys) : Prop where
  rest : s' = { s with
    gic := s'.gic, gpio := { s.gpio with port := s'.gpio.port }, secpwr := s'.secpwr
    cloak := { s.cloak with confirmStatus := s'.cloak.confirmStatus } }
  settled : s.PinsSettled pressed → s'.PinsSettled pressed
  status : s.cloak.confirmStatus ≠ .allow → s'.cloak.confirmStatus ≠ .allow

theorem IrqStep.homePin {pressed : Nat → Nat → Bool} {s s' : Sys} (h : IrqStep pressed s s') :
    s'.homePin = s.homePin := by
  rw [h.rest]
  rfl

theorem IrqStep.refl (pressed : Nat → Nat → Bool) (s : Sys) : IrqStep pressed s s :=
  ⟨rfl, id, id⟩

theorem IrqStep.trans {pressed : Nat → Nat → Bool} {s s' s'' : Sys} (h : IrqStep pressed s s')
    (h' : IrqStep pressed s' s'') : IrqStep pressed s s'' := by
  refine ⟨?_, fun hs => h'.settled (h.settled hs), fun hs => h'.status (h.status hs)⟩
  rw [h'.rest, h.rest]

/-- Code that runs for the pin `i` of port `n`, when it is not the pin of a HOMEPAGE button. -/
def Quiet (pressed : Nat → Nat → Bool) (n i : Nat) (s : Sys) (_ : List Event) (s' : Sys) : Prop :=
  s.homePin n i = false → IrqStep pressed s s'

section Quiet

variable {pressed : Nat → Nat → Bool} {n i : Nat}

theorem quiet_closed : Code.Closed (Quiet pressed n i) where
  nil s _ := IrqStep.refl pressed s
  append h h' hhome := by
    have hfirst := h hhome
    refine hfirst.trans (h' ?_)
    rw [hfirst.homePin]
    exact hhome

/-- An update of a port that leaves the pins of HOMEPAGE buttons at rest. -/
theorem modifyPort_irqStep {f : Port → Port} {s s' : Sys} {w : List Event} {u : Unit}
    (hf : ∀ p j hw, s.gpio.port n = some p → j < 32 → s.homePin n j = true →
      p.Settled hw (pressed n j) j → s.gpio.hwtype.map hwData = some hw →
      (f p).Settled hw (pressed n j) j)
    (h : Code.Runs (modifyPort n f) s w u s') : IrqStep pressed s s' := by
  obtain ⟨-, p, hp, rfl⟩ := modifyPort_runs h
  refine ⟨rfl, fun hset m hm j hj hhome q hq ty hty => ?_, id⟩
  change q ∈ Function.update s.gpio.port n (some (f p)) m at hq
  by_cases hmn : m = n
  · subst hmn
    rw [Function.update_self] at hq
    obtain rfl := Option.some.inj hq
    refine hf p j _ hp hj hhome (hset m hm j hj hhome p hp ty hty) ?_
    exact congrArg (Option.map hwData) hty
  · rw [Function.update_of_ne hmn] at hq
    exact hset m hm j hj hhome q hq ty hty

theorem modifyPort_quiet {f : Port → Port} (hf : ∀ p : Port, p.Keeps i (f p)) :
    Code.Within (modifyPort n f) (Quiet pressed n i) := by
  intro s w u s' h hhome
  refine modifyPort_irqStep (fun p j hw _ hj hhome' hset _ => ?_) h
  have hne : j ≠ i := by
    rintro rfl
    exact absurd (hhome'.symm.trans hhome) (by decide)
  exact (hf p).settled hj hne hset

theorem PressOnly.irqStep {s s' : Sys} {w : List Event} (h : PressOnly s w s')
    (hstatus : s.cloak.confirmStatus ≠ .allow → s'.cloak.confirmStatus ≠ .allow) :
    IrqStep pressed s s' := by
  refine ⟨?_, fun hset => ?_, hstatus⟩
  · rw [h.rest]
  · rw [h.rest]
    exact hset

theorem gpioKeysHandler_status {code : Word} {s s' : Sys} {w : List Event} {r : Bool}
    (hcode : code ≠ keyHomepage) (h : Code.Runs (gpioKeysHandler code) s w r s')
    (hstatus : s.cloak.confirmStatus ≠ .allow) : s'.cloak.confirmStatus ≠ .allow := by
  have hpress : s.cloak.confirmStatus.press code ≠ .allow := by
    unfold Confirm.press
    rw [if_neg hcode]
    split
    · decide
    · exact hstatus
  rw [gpioKeysHandler, Code.runs_get_bind] at h
  cases hk : s.keys with
  | none => simp [hk] at h
  | some k =>
    simp only [hk] at h
    rw [pressAll_confirm h]
    split
    · exact hpress
    · exact hstatus

theorem gpioKeysIrq_irqStep {b : Nat} {s s' : Sys} {w : List Event} {r : IrqReturn}
    (hcode : (Handler.button b).code s ≠ some keyHomepage)
    (h : Code.Runs (gpioKeysIrq b) s w r s') : IrqStep pressed s s' := by
  rw [gpioKeysIrq, Code.runs_get_bind] at h
  cases hbs : s.keys.bind (·.buttons) with
  | none => simp [hbs] at h
  | some buttons =>
    simp only [hbs] at h
    cases hb : buttons[b]? with
    | none => simp [hb] at h
    | some button =>
      simp only [hb] at h
      obtain ⟨w₁, c, s₁, w₂, h₁, h₂, -⟩ := Code.runs_bind.mp h
      obtain ⟨-, -, rfl⟩ := Code.runs_pure.mp h₂
      have hne : button.code ≠ keyHomepage := by
        intro heq
        apply hcode
        simp [Handler.code, hbs, hb, heq]
      exact (gpioKeysHandler_pressOnly _ h₁).irqStep (gpioKeysHandler_status hne h₁)

theorem pinHandler_irqStep {handler : Handler} {s s' : Sys} {w : List Event} {r : IrqReturn}
    (hcode : handler.code s ≠ some keyHomepage) (h : Code.Runs (pinHandler handler) s w r s') :
    IrqStep pressed s s' := by
  cases handler with
  | button b => exact gpioKeysIrq_irqStep hcode h
  | port m | portHigh m =>
    obtain ⟨-, -, rfl⟩ := Code.runs_pure.mp h
    exact IrqStep.refl pressed _

theorem chipDisable_quiet : Code.Within (chipDisable ⟨.gpio n, i⟩) (Quiet pressed n i) := by
  refine Code.within_bind quiet_closed (Code.within_require quiet_closed _) fun _ => ?_
  refine Code.within_bind quiet_closed (modifyPort_quiet fun p => p.keeps_irqMask i i true) fun _ => ?_
  exact Code.within_pure quiet_closed _

theorem irqHandle_quiet :
    Code.Within (irqHandle pinHandler ⟨.gpio n, i⟩) (Quiet pressed n i) := by
  have hdisable : ∀ r : IrqReturn, Code.Within (do
      let _ ← chipDisable ⟨.gpio n, i⟩
      pure r : Kernel IrqReturn) (Quiet pressed n i) := fun r =>
    Code.within_bind quiet_closed chipDisable_quiet fun _ => Code.within_pure quiet_closed r
  intro s w r s' h hhome
  obtain ⟨-, h⟩ := irqCheckValid_bind.mp h
  rw [Code.runs_get_bind] at h
  cases htab : (s.chip (.gpio n)).handlers with
  | none => simp [htab] at h
  | some table =>
    simp only [htab] at h
    cases hh : table i with
    | none =>
      simp only [hh] at h
      exact Code.within_ite (Code.within_pure quiet_closed _) (hdisable _) h hhome
    | some handler =>
      simp only [hh] at h
      obtain ⟨w₁, ret, s₁, w₂, h₁, h₂, -⟩ := Code.runs_bind.mp h
      have hcode : handler.code s ≠ some keyHomepage := by
        intro hc
        rw [Sys.homePin, htab] at hhome
        simp [hh, hc] at hhome
      have hfirst : IrqStep pressed s s₁ := pinHandler_irqStep hcode h₁
      refine hfirst.trans ?_
      have hrest : Code.Within (do
          Code.runIf (ret = .none) (do
            let _ ← chipDisable ⟨.gpio n, i⟩
            pure ())
          pure ret : Kernel IrqReturn) (Quiet pressed n i) := by
        refine Code.within_bind quiet_closed ?_ fun _ => Code.within_pure quiet_closed _
        refine Code.within_runIf quiet_closed ?_
        exact Code.within_bind quiet_closed chipDisable_quiet fun _ => Code.within_pure quiet_closed _
      refine hrest h₂ ?_
      rw [hfirst.homePin]
      exact hhome

/-- Serving a pin without a HOMEPAGE button. -/
theorem mxcGpioServe_quiet : Code.Within (mxcGpioServe n i) (Quiet pressed n i) := by
  refine Code.within_bind quiet_closed (Code.within_get quiet_closed) fun s => ?_
  cases s.gpio.hwtype with
  | none => exact Code.within_throw _
  | some ty =>
    refine Code.within_bind quiet_closed (modifyPort_quiet fun p => ?_) fun _ => ?_
    · split
      · rename_i hboth
        exact p.keeps_flipEdge ty (BitVec.lt_of_getLsbD hboth)
      · exact Port.Keeps.refl i p
    refine Code.within_bind quiet_closed irqHandle_quiet fun ret => ?_
    cases ret with
    | handled => exact modifyPort_quiet fun p => p.keeps_irqAck i
    | handledPass => exact modifyPort_quiet fun p => p.keeps_passIrq i
    | none | handledDefault =>
      refine modifyPort_quiet fun p => ?_
      split
      · exact Port.Keeps.refl i p
      · exact p.keeps_passIrq i

end Quiet

/-- The end of a handler, for any pin. -/
theorem mxcGpioRaise_irqStep {pressed : Nat → Nat → Bool} {env : Env} {n : Nat} {s s' : Sys}
    {w : List Event} {u : Unit} (h : Code.Runs (mxcGpioRaise env n) s w u s') :
    IrqStep pressed s s' := by
  rw [mxcGpioRaise, Code.runs_get_bind] at h
  cases hp : s.gpio.port n with
  | none => simp [hp] at h
  | some p =>
    simp only [hp] at h
    rcases Code.runs_runIf.mp h with ⟨-, h⟩ | ⟨-, -, rfl⟩
    swap
    · exact IrqStep.refl pressed _
    obtain ⟨_, _, s₁, _, h₁, h₂, -⟩ := Code.runs_bind.mp h
    obtain ⟨-, -, rfl⟩ := Code.runs_pure.mp h₂
    obtain ⟨-, h₁⟩ := irqCheckValid_bind.mp h₁
    have hraise : ∀ {it s₁ w r}, Code.Runs (gicOpRaise env it) s w r s₁ → IrqStep pressed s s₁ := by
      intro it s₁ w r hr
      rw [gicOpRaise, runs_kassert_bind, modifyGic, Code.runs_modify_bind, Code.runs_pure] at hr
      obtain ⟨-, -, -, rfl⟩ := hr
      exact ⟨rfl, id, id⟩
    cases hchip : p.irqPass.chip with
    | gic | gpc =>
      rw [hchip] at h₁
      exact hraise h₁
    | gpio m =>
      rw [hchip] at h₁
      obtain ⟨-, -, rfl⟩ := Code.runs_pure.mp h₁
      exact IrqStep.refl pressed _

/-! ## Wires -/

section Wires

variable {pressed : Nat → Nat → Bool} {n i : Nat} {s s' : Sys} {w : List Event} {u : Unit}

theorem modifyWires_irqStep {f : HwData → Port → Port}
    (hf : ∀ p j hw, s.gpio.port n = some p → j < 32 → s.homePin n j = true →
      p.Settled hw (pressed n j) j → (f hw p).Settled hw (pressed n j) j)
    (h : Code.Runs (modifyWires n f) s w u s') : IrqStep pressed s s' := by
  rw [modifyWires, Code.runs_get_bind] at h
  cases hty : s.gpio.hwtype with
  | none => simp [hty] at h
  | some ty =>
    simp only [hty] at h
    refine modifyPort_irqStep (fun p j hw hp hj hhome hset hhw => ?_) h
    rw [hty] at hhw
    obtain rfl := Option.some.inj hhw
    exact hf p j _ hp hj hhome hset

/-- A pin is driven without a HOMEPAGE button getting pressed. -/
theorem drive_irqStep {b : Bool}
    (hb : s.presses (pressed n i) n i b = false)
    (h : Code.Runs (modifyWires n (Port.drive · · i b)) s w u s') : IrqStep pressed s s' := by
  refine modifyWires_irqStep (fun p j hw hp hj hhome hset => ?_) h
  by_cases hji : j = i
  · subst hji
    have hvalue : p.getValue j = !pressed n j := Bool.eq_not.mpr hset.1
    have hlevel : b = !pressed n j := by
      apply Bool.eq_not.mpr
      rintro rfl
      simp [Sys.presses, hhome, hj, hp, hvalue] at hb
    rw [hlevel, hset.drive]
    exact hset
  · exact (p.keeps_drive hw i b).settled hj hji hset

theorem latch_irqStep (h : Code.Runs (modifyWires n (Port.latch · · i)) s w u s') :
    IrqStep pressed s s' := by
  refine modifyWires_irqStep (fun p j hw _ hj hhome hset => ?_) h
  by_cases hji : j = i
  · subst hji
    rw [hset.latch]
    exact hset
  · exact (p.keeps_latch hw i).settled hj hji hset

theorem gpioAckPassed_irqStep {value : Word} (h : Code.Runs (gpioAckPassed n value) s w u s') :
    IrqStep pressed s s' := by
  rw [gpioAckPassed, Code.runs_get_bind] at h
  cases hp : s.gpio.port n with
  | none => simp [hp] at h
  | some p =>
    simp only [hp] at h
    obtain ⟨-, h⟩ := Code.runs_require_bind.mp h
    refine modifyPort_irqStep (fun p j hw _ hj hhome hset _ => ?_) h
    exact (p.keeps_ackPassed (j + 1) value).settled hj (by omega) hset

end Wires

/-! ## Runs -/

namespace Dialog

variable {κ : Type}

section Handler

variable [DecidableEq κ] {env : Env} {t : DeviceTable} {pressed : Nat → Nat → Bool} {c : Dialog κ}
  {k : κ} {n : Nat} {s s' : Sys} {w : List Event}

/-- The loop of a handler. -/
theorem serve_steps {is : List Nat} {u : Unit}
    (h : Code.Runs (Code.forEach (mxcGpioServe n) is) s w u s') :
    Steps (fun c a c' => c.step env t pressed a = some c') (c.withHandler k (some (n, is)) s)
      (List.replicate is.length (.serve k)) (c.withHandler k (some (n, [])) s') := by
  induction is generalizing s w with
  | nil =>
    obtain ⟨-, rfl⟩ := Code.runs_forEach_nil.mp h
    exact .nil _
  | cons i is ih =>
    obtain ⟨w₁, s₁, w₂, h₁, h₂, -⟩ := Code.runs_forEach_cons.mp h
    refine .cons ?_ (ih h₂)
    change serveStep _ k = _
    rw [serveStep, withHandler]
    simp only [Function.update_self, Code.out_eq_some.mpr ⟨w₁, h₁⟩, Option.map_some, withHandler,
      Function.update_idem]

/-- A run of the handler of a port is a run of its steps. -/
theorem handler_steps {r : IrqReturn} (hk : c.handler k = none) (hn : n < c.sys.gpio.allocated)
    (h : Code.Runs (mx3GpioIrqHandler env n) c.sys w r s') :
    ∃ m, Steps (fun c a c' => c.step env t pressed a = some c') c
      (.enterIrq k n :: (List.replicate m (.serve k) ++ [.leaveIrq k])) { c with sys := s' } := by
  obtain ⟨w₁, irqStat, s₁, w₂, h₁, h₂, -⟩ := Code.runs_bind.mp h
  obtain ⟨w₃, _, s₃, w₄, h₃, h₄, -⟩ := Code.runs_bind.mp h₂
  obtain ⟨-, -, rfl⟩ := Code.runs_pure.mp h₄
  obtain ⟨w₅, _, s₅, w₆, h₅, h₆, -⟩ := Code.runs_bind.mp h₃
  have henter : c.step env t pressed (.enterIrq k n) =
      some (c.withHandler k (some (n, irqOffsets irqStat)) s₁) := by
    change enterStep c k n = _
    rw [enterStep, hk]
    simp only [hn, if_true, Code.out_eq_some.mpr ⟨w₁, h₁⟩, Option.map_some]
  have hleave : (c.withHandler k (some (n, [])) s₅).step env t pressed (.leaveIrq k) =
      some { c with sys := s' } := by
    change leaveStep env _ k = _
    rw [leaveStep, withHandler]
    simp only [Function.update_self, Code.out_eq_some.mpr ⟨w₆, h₆⟩, Option.map_some, withHandler,
      Function.update_idem]
    rw [← hk, Function.update_eq_self]
  exact ⟨_, .cons henter (steps_append.mpr ⟨_, serve_steps h₅, .cons hleave (.nil _)⟩)⟩

end Handler

/-- As long as no HOMEPAGE button was pressed since the reset of the status, all of them are at rest
and the status is not `CLOAK_CONFIRM_ALLOW`; and then nothing is applied. -/
structure Inv (pressed : Nat → Nat → Bool) (c : Dialog κ) : Prop where
  waiting : c.pc.waits = true → c.fresh = false →
    c.Rested pressed ∧ c.sys.cloak.confirmStatus ≠ .allow
  applied : c.pc.applies = true → c.fresh = true

variable {env : Env} {t : DeviceTable} {pressed : Nat → Nat → Bool} {c c' : Dialog κ}

/-- Outside of the dialog nothing is to be shown. -/
theorem inv_of_outside (hw : c.pc.waits = false) (ha : c.pc.applies = false) : c.Inv pressed where
  waiting hw' _ := absurd (hw.symm.trans hw') (by decide)
  applied ha' := absurd (ha.symm.trans ha') (by decide)

theorem wires_eq {m : Kernel Unit} (h : c.wires m = some c') :
    ∃ w s, Code.Runs m c.sys w () s ∧ c' = { c with sys := s } := by
  obtain ⟨⟨u, s⟩, hout, rfl⟩ := Option.map_eq_some_iff.mp h
  obtain ⟨w, hr⟩ := Code.out_eq_some.mp hout
  exact ⟨w, s, hr, rfl⟩

/-- A step of the pins or of a handler. -/
theorem Inv.irqStep (hc : c.Inv pressed) (hpc : c'.pc = c.pc)
    (hmono : c.fresh = true → c'.fresh = true)
    (hstep : c.Rested pressed → c'.fresh = false → IrqStep pressed c.sys c'.sys)
    (hserved : c.Rested pressed →
      ∀ k, ∀ x ∈ c'.handler k, ∀ i ∈ x.2, c.sys.homePin x.1 i = false) : c'.Inv pressed := by
  refine ⟨fun hw hf => ?_, fun ha => ?_⟩
  · rw [hpc] at hw
    have hf' : c.fresh = false := by
      cases hcf : c.fresh with
      | false => rfl
      | true => exact absurd (hf.symm.trans (hmono hcf)) (by decide)
    obtain ⟨hrest, hstatus⟩ := hc.waiting hw hf'
    have hirq := hstep hrest hf
    refine ⟨⟨hirq.settled hrest.pins, fun k x hx i hi => ?_⟩, hirq.status hstatus⟩
    rw [hirq.homePin]
    exact hserved hrest k x hx i hi
  · rw [hpc] at ha
    exact hmono (hc.applied ha)

/-- A step of the pins leaves the handlers as they are. -/
theorem Inv.wires (hc : c.Inv pressed) {m : Kernel Unit} (h : c.wires m = some c')
    (hm : ∀ w s, Code.Runs m c.sys w () s → IrqStep pressed c.sys s) : c'.Inv pressed := by
  obtain ⟨w, s, hr, rfl⟩ := wires_eq h
  exact hc.irqStep rfl id (fun _ _ => hm w s hr) fun hrest => hrest.served

theorem Inv.levelStep (hc : c.Inv pressed) {n i : Nat} {b : Bool}
    (h : c.levelStep pressed n i b = some c') : c'.Inv pressed := by
  obtain ⟨⟨u, s⟩, hout, rfl⟩ := Option.map_eq_some_iff.mp h
  obtain ⟨w, hr⟩ := Code.out_eq_some.mp hout
  refine hc.irqStep rfl (fun hf => ?_) (fun _ hf => ?_) fun hrest => hrest.served
  · change (c.fresh || _) = true
    rw [hf, Bool.true_or]
  · exact drive_irqStep (Bool.or_eq_false_iff.mp hf).2 hr

theorem mem_irqOffsets {irqStat : Word} {i : Nat} (h : i ∈ irqOffsets irqStat) :
    i < 32 ∧ irqStat.getLsbD i = true := by
  obtain ⟨hmem, hbit⟩ := List.mem_filter.mp h
  exact ⟨List.mem_range.mp (List.mem_reverse.mp hmem), hbit⟩

/-- A HOMEPAGE button at rest is not among the pins that a handler takes up. -/
theorem mx3GpioIrqStat_rest {n : Nat} {s s' : Sys} {w : List Event} {irqStat : Word}
    (hn : n < s.gpio.allocated) (hs : s.PinsSettled pressed)
    (h : Code.Runs (mx3GpioIrqStat n) s w irqStat s') :
    s' = s ∧ ∀ i ∈ irqOffsets irqStat, s.homePin n i = false := by
  rw [mx3GpioIrqStat, Code.runs_get_bind] at h
  cases hty : s.gpio.hwtype with
  | none => simp [hty] at h
  | some ty =>
    cases hp : s.gpio.port n with
    | none => simp [hty, hp] at h
    | some p =>
      simp only [hty, hp, Code.runs_pure] at h
      obtain ⟨-, rfl, rfl⟩ := h
      refine ⟨rfl, fun i hi => Bool.eq_false_iff.mpr fun hhome => ?_⟩
      obtain ⟨hlt, hbit⟩ := mem_irqOffsets hi
      have hset := hs n hn i hlt hhome p hp ty hty
      rw [BitVec.getLsbD_and, hset.2.1] at hbit
      cases hbit

variable [DecidableEq κ]

theorem mem_withHandler {k j : κ} {hd : Option (Nat × List Nat)} {s : Sys} {x : Nat × List Nat}
    (h : x ∈ (c.withHandler k hd s).handler j) : x ∈ hd ∨ x ∈ c.handler j := by
  change x ∈ Function.update c.handler k hd j at h
  by_cases hjk : j = k
  · subst hjk
    rw [Function.update_self] at h
    exact Or.inl h
  · rw [Function.update_of_ne hjk] at h
    exact Or.inr h

theorem Inv.enterStep (hc : c.Inv pressed) {k : κ} {n : Nat} (h : c.enterStep k n = some c') :
    c'.Inv pressed := by
  unfold Dialog.enterStep at h
  split at h
  · cases h
  split at h
  swap
  · cases h
  rename_i hn
  obtain ⟨⟨irqStat, s⟩, hout, rfl⟩ := Option.map_eq_some_iff.mp h
  obtain ⟨w, hr⟩ := Code.out_eq_some.mp hout
  refine hc.irqStep rfl id (fun hrest _ => ?_) fun hrest j x hx i hi => ?_
  · obtain ⟨hs, -⟩ := mx3GpioIrqStat_rest hn hrest.pins hr
    change IrqStep pressed c.sys s
    rw [hs]
    exact IrqStep.refl pressed _
  · rcases mem_withHandler hx with hx | hx
    · obtain rfl := Option.some.inj hx
      exact (mx3GpioIrqStat_rest hn hrest.pins hr).2 i hi
    · exact hrest.served j x hx i hi

theorem Inv.serveStep (hc : c.Inv pressed) {k : κ} (h : c.serveStep k = some c') :
    c'.Inv pressed := by
  unfold Dialog.serveStep at h
  split at h
  swap
  · cases h
  rename_i n i rest hk
  obtain ⟨⟨u, s⟩, hout, rfl⟩ := Option.map_eq_some_iff.mp h
  obtain ⟨w, hr⟩ := Code.out_eq_some.mp hout
  refine hc.irqStep rfl id (fun hrest _ => ?_) fun hrest j x hx i' hi' => ?_
  · exact mxcGpioServe_quiet hr (hrest.served k _ hk i List.mem_cons_self)
  · rcases mem_withHandler hx with hx | hx
    · obtain rfl := Option.some.inj hx
      exact hrest.served k _ hk i' (List.mem_cons_of_mem _ hi')
    · exact hrest.served j x hx i' hi'

theorem Inv.leaveStep (hc : c.Inv pressed) {k : κ} (h : c.leaveStep env k = some c') :
    c'.Inv pressed := by
  unfold Dialog.leaveStep at h
  split at h
  swap
  · cases h
  obtain ⟨⟨u, s⟩, hout, rfl⟩ := Option.map_eq_some_iff.mp h
  obtain ⟨w, hr⟩ := Code.out_eq_some.mp hout
  refine hc.irqStep rfl id (fun _ _ => mxcGpioRaise_irqStep hr) fun hrest j x hx i hi => ?_
  rcases mem_withHandler hx with hx | hx
  · cases hx
  · exact hrest.served j x hx i hi

omit [DecidableEq κ] in
/-- A step of the thread. Only the decision leads to the settings being applied, and only the reset
leads to the wait. -/
theorem Inv.threadStep (hc : c.Inv pressed) (hreset : c.pc.resets = true → c.Rested pressed)
    (h : c.threadStep env t = some c') : c'.Inv pressed := by
  obtain ⟨⟨pc', s⟩, hout, rfl⟩ := Option.map_eq_some_iff.mp h
  obtain ⟨w, hr⟩ := Code.out_eq_some.mp hout
  cases hpc : c.pc with
  | reset a1 fb classes =>
    rw [hpc] at hr
    rw [SetPc.run, Code.runs_modify_bind, Code.runs_pure] at hr
    obtain ⟨-, rfl, rfl⟩ := hr
    obtain ⟨hpins, hserved⟩ := hreset (by rw [hpc]; rfl)
    refine ⟨fun _ _ => ⟨⟨hpins, hserved⟩, ?_⟩, fun ha => ?_⟩
    · change Confirm.none ≠ .allow
      decide
    · cases ha
  | wait a1 fb classes =>
    have hwait : c.pc.waits = true := by rw [hpc]; rfl
    rw [hpc, SetPc.run, Code.runs_get_bind, Code.runs_pure] at hr
    obtain ⟨-, rfl, rfl⟩ := hr
    have hfresh : (c.fresh && !(SetPc.wait a1 fb classes).resets) = c.fresh := Bool.and_true _
    simp only [hfresh]
    refine ⟨fun _ hf => ?_, fun ha => ?_⟩
    · obtain ⟨hrest, hstatus⟩ := hc.waiting hwait hf
      exact ⟨⟨hrest.pins, hrest.served⟩, hstatus⟩
    · simp only at ha
      split at ha <;> cases ha
  | answered a1 fb classes =>
    have hwait : c.pc.waits = true := by rw [hpc]; rfl
    rw [hpc, SetPc.run, Code.runs_get_bind, Code.runs_pure] at hr
    obtain ⟨-, rfl, rfl⟩ := hr
    have hfresh : (c.fresh && !(SetPc.answered a1 fb classes).resets) = c.fresh := Bool.and_true _
    simp only [hfresh]
    by_cases hallow : c.sys.cloak.confirmStatus = .allow
    · rw [if_pos hallow]
      refine Inv.mk (fun hw _ => by cases hw) fun _ => ?_
      cases hf : c.fresh with
      | true => rfl
      | false => exact absurd hallow (hc.waiting hwait hf).2
    · rw [if_neg hallow]
      exact inv_of_outside rfl rfl
  | idle | enter | refused | acquireFb | acquireKeys | draw | apply | deny | releaseKeys | releaseFb
    | unlock =>
    obtain ⟨hw, ha⟩ := SetPc.run_outside (by rw [hpc]; rfl) (by rw [hpc]; rfl) hr
    exact inv_of_outside hw ha

omit [DecidableEq κ] in
theorem Inv.callStep {a1 : Word} (h : c.callStep a1 = some c') : c'.Inv pressed := by
  unfold Dialog.callStep at h
  split at h
  · obtain rfl := Option.some.inj h
    exact inv_of_outside rfl rfl
  · cases h

/-- A step of a run in which every reset of the status finds the HOMEPAGE buttons at rest. -/
def RestedStep (env : Env) (t : DeviceTable) (pressed : Nat → Nat → Bool) (c : Dialog κ)
    (a : DialogAct κ) (c' : Dialog κ) : Prop :=
  c.step env t pressed a = some c' ∧ (a = .thread → c.pc.resets = true → c.Rested pressed)

theorem Inv.step {a : DialogAct κ} (h : RestedStep env t pressed c a c') (hc : c.Inv pressed) :
    c'.Inv pressed := by
  obtain ⟨hstep, hreset⟩ := h
  cases a with
  | call a1 => exact Inv.callStep hstep
  | thread => exact hc.threadStep (hreset rfl) hstep
  | level n i b => exact hc.levelStep hstep
  | latch n i => exact hc.wires hstep fun w s hr => latch_irqStep hr
  | enterIrq k n => exact hc.enterStep hstep
  | serve k => exact hc.serveStep hstep
  | leaveIrq k => exact hc.leaveStep hstep
  | ack n value => exact hc.wires hstep fun w s hr => gpioAckPassed_irqStep hr

end Dialog

/-- In every interleaving of the thread with pins and interrupts, settings are applied only after
HOMEPAGE was pressed anew, if every reset of the status finds the HOMEPAGE buttons released, and no
interrupt of them latched, about to be latched, or still to be served. -/
theorem applied_fresh {κ : Type} [DecidableEq κ] {env : Env} {t : DeviceTable}
    {pressed : Nat → Nat → Bool} {c₀ c : Dialog κ} {as : List (DialogAct κ)}
    (hidle : c₀.pc = .idle) (h : Steps (Dialog.RestedStep env t pressed) c₀ as c) :
    c.pc.applies = true → c.fresh = true := by
  have h₀ : c₀.Inv pressed := by
    apply Dialog.inv_of_outside <;> rw [hidle] <;> rfl
  exact (h.invariant (fun _ _ _ _ => Dialog.Inv.step) h₀).applied

namespace Board

/-- The machine at boot, with one core that takes interrupts. Both keys pull their pin low. -/
def dialog : Dialog Unit := ⟨booted imx6 0, .idle, fun _ => none, false⟩

def activeLow (_ _ : Nat) : Bool := false

/-- Whether the HOMEPAGE buttons are at rest, by evaluation. -/
def isRested (c : Dialog Unit) : Bool :=
  decide (c.sys.PinsSettled activeLow) &&
    (c.handler ()).all fun h => h.2.all fun i => !c.sys.homePin h.1 i

def isThread : DialogAct Unit → Bool
  | .thread => true
  | _ => false

/-- A step, unless it resets the status while a HOMEPAGE button is not at rest. -/
def restedStep (c : Dialog Unit) (a : DialogAct Unit) : Option (Dialog Unit) :=
  if isThread a && c.pc.resets && !isRested c then none else c.step imx6 table activeLow a

theorem rested_of_isRested {c : Dialog Unit} (h : isRested c = true) : c.Rested activeLow := by
  obtain ⟨hpins, hserved⟩ := Bool.and_eq_true_iff.mp h
  refine ⟨of_decide_eq_true hpins, fun k x hx i hi => ?_⟩
  rw [hx, Option.all_some, List.all_eq_true] at hserved
  have hhome := hserved i hi
  rwa [Bool.not_eq_true'] at hhome

theorem restedStep_rested {c c' : Dialog Unit} {a : DialogAct Unit}
    (h : restedStep c a = some c') : Dialog.RestedStep imx6 table activeLow c a c' := by
  unfold restedStep at h
  split_ifs at h with hc
  refine ⟨h, ?_⟩
  rintro rfl hreset
  apply rested_of_isRested
  cases hr : isRested c with
  | true => rfl
  | false => exact absurd (by rw [hreset, hr]; rfl) hc

/-- The keys are released, a request comes in, and HOMEPAGE is pressed when the dialog waits. -/
def pressed : List (DialogAct Unit) :=
  [.level 0 4 true, .level 0 5 true, .enterIrq () 0, .serve (), .serve (), .leaveIrq (),
   .ack 0 0x30, .call 0, .thread, .thread, .thread, .thread, .thread, .thread, .level 0 5 false,
   .enterIrq () 0, .serve (), .thread, .thread]

/-- HOMEPAGE is held when the dialog opens, and released. -/
def released : List (DialogAct Unit) :=
  [.call 0, .thread, .thread, .thread, .thread, .thread, .thread, .level 0 5 true,
   .enterIrq () 0, .serve (), .thread, .thread]

end Board

theorem applied_fresh_board : ∃ c : Dialog Unit, Board.dialog.pc = .idle ∧
    Steps (Dialog.RestedStep imx6 Board.table Board.activeLow) Board.dialog Board.pressed c ∧
      c.pc.applies = true ∧ c.fresh = true := by
  have hrun : (Board.pressed.foldlM Board.restedStep Board.dialog).map (·.pc.applies) = some true := by
    decide +kernel
  obtain ⟨c, hc, happly⟩ := Option.map_eq_some_iff.mp hrun
  have hsteps := steps_of_foldlM (fun _ _ _ => Board.restedStep_rested) hc
  exact ⟨c, rfl, hsteps, happly, applied_fresh rfl hsteps happly⟩

/-- The release of a key that was held from before is taken for an answer. -/
theorem applied_stale : ∃ c : Dialog Unit,
    Steps (fun c a c' => c.step imx6 Board.table Board.activeLow a = some c') Board.dialog
        Board.released c ∧
      c.pc.applies = true ∧ c.fresh = false := by
  have hrun : (Board.released.foldlM (Dialog.step imx6 Board.table Board.activeLow) Board.dialog).map
      (fun c => c.pc.applies && !c.fresh) = some true := by decide +kernel
  obtain ⟨c, hc, hend⟩ := Option.map_eq_some_iff.mp hrun
  obtain ⟨happly, hfresh⟩ := Bool.and_eq_true_iff.mp hend
  refine ⟨c, steps_of_foldlM (fun _ _ _ h => h) hc, happly, ?_⟩
  rwa [Bool.not_eq_true'] at hfresh

end SeCloak
