import SeCloak.Kernel.BootProps
import SeCloak.Misc.Holders
import SeCloak.Misc.Steps
import SeCloak.Platform

/-!
# Who holds a pin (`imx_gpio.c:396-450`, `imx_gpio.c:672-713`)

A pin is taken with `gpio_acquire`, with `irq_add` or with `irq_secure`, and given back with
`gpio_release`, `irq_remove` or `irq_unsecure`. All of them set or clear the bit of the pin in
`secure_mask`, and nothing counts how often it was set: `gpio_acquire` alone refuses a pin that is
secured. So a bit stands for its holders exactly as long as nobody gives a pin back that somebody
else still holds (`pins_held_iff`).
-/

namespace SeCloak
open Misc

/-! ## Acquire and release -/

/-- `gpio_acquire` (`imx_gpio.c:409-418`) with `__gpio_acquire` (`imx_gpio.c:396-407`). -/
def gpioAcquire (n index : Nat) (isOutput : Bool) : Kernel Bool := do
  Code.require (index < 32) .undefined
  let s ← Code.get
  match s.gpio.port n with
  | none => Code.throw .undefined
  | some p =>
    if p.secureMask.getLsbD index then pure false
    else do
      modifyPort n fun p => ((p.irqOpSecure index).setDir index isOutput).irqMask index true
      pure true

/-- `gpio_release` (`imx_gpio.c:430-441`). -/
def gpioRelease (n index : Nat) : Kernel Bool := do
  Code.require (index < 32) .undefined
  let s ← Code.get
  match s.gpio.port n with
  | none => Code.throw .undefined
  | some p =>
    if p.secureMask.getLsbD index then do
      modifyPort n (·.irqOpUnsecure index)
      pure true
    else pure false

/-! ## Calls -/

/-- A call of a driver that concerns one pin. -/
inductive PinCall where
  | acquire (pin : Nat) (isOutput : Bool)
  | release (pin : Nat)
  | add (pin : Nat) (flags : Word) (handler : Handler)
  | remove (pin : Nat)
  | secure (pin : Nat)
  | unsecure (pin : Nat)
  | enable (pin : Nat)
  | disable (pin : Nat)

namespace PinCall

def pin : PinCall → Nat
  | .acquire pin _ | .release pin | .add pin _ _ | .remove pin | .secure pin | .unsecure pin
  | .enable pin | .disable pin => pin

/-- The call on a pin of the `n`-th port, and whether it succeeds. -/
def run (env : Env) (n : Nat) : PinCall → Kernel Bool
  | .acquire pin isOutput => gpioAcquire n pin isOutput
  | .release pin => gpioRelease n pin
  | .add pin flags handler => do
    let r ← irqAdd env ⟨.gpio n, pin⟩ flags handler
    pure (decide (r = 0))
  | .remove pin => do
    let r ← irqRemove ⟨.gpio n, pin⟩
    pure (decide (r = 0))
  | .secure pin => do
    let r ← irqSecure env ⟨.gpio n, pin⟩
    pure (decide (r = 0))
  | .unsecure pin => do
    let r ← irqUnsecure ⟨.gpio n, pin⟩
    pure (decide (r = 0))
  | .enable pin => do
    let r ← irqEnable env ⟨.gpio n, pin⟩
    pure (decide (r = 0))
  | .disable pin => do
    let r ← irqDisable ⟨.gpio n, pin⟩
    pure (decide (r = 0))

end PinCall

/-! ## The mask after a call -/

/-- The bit of a pin in `secure_mask` becomes `b`, the others stay. -/
def SetsPin (n pin : Nat) (b : Bool) (s s' : Sys) : Prop :=
  ∀ i < 32, s'.lineSecured (.gpio n i) = if i = pin then b else s.lineSecured (.gpio n i)

section

variable {s s' : Sys} {w : List Event} {n pin : Nat} {p q : Port}

/-- All bits stay. -/
def KeepsPins (n : Nat) (s s' : Sys) : Prop :=
  ∀ i < 32, s'.lineSecured (.gpio n i) = s.lineSecured (.gpio n i)

theorem lineSecured_port (hq : s.gpio.port n = some q) (i : Nat) :
    s.lineSecured (.gpio n i) = q.secureMask.getLsbD i := by
  simp only [Sys.lineSecured, hq]

theorem getLsbD_secured (m : Word) {i : Nat} (hi : i < 32) (pin : Nat) :
    (m ||| BitVec.twoPow 32 pin).getLsbD i = if i = pin then true else m.getLsbD i := by
  rw [BitVec.getLsbD_or, BitVec.getLsbD_twoPow]
  by_cases h : i = pin
  · subst h
    simp [hi]
  · simp [h, Ne.symm h]

theorem getLsbD_unsecured (m : Word) {i : Nat} (hi : i < 32) (pin : Nat) :
    (m &&& ~~~BitVec.twoPow 32 pin).getLsbD i = if i = pin then false else m.getLsbD i := by
  rw [BitVec.getLsbD_and, BitVec.getLsbD_not, BitVec.getLsbD_twoPow]
  by_cases h : i = pin
  · subst h
    simp [hi]
  · simp [h, Ne.symm h, hi]

theorem setsPin_true (hp : s.gpio.port n = some p) (hq : s'.gpio.port n = some q)
    (hmask : q.secureMask = p.secureMask ||| BitVec.twoPow 32 pin) : SetsPin n pin true s s' := by
  intro i hi
  rw [lineSecured_port hq, lineSecured_port hp, hmask]
  exact getLsbD_secured _ hi pin

theorem setsPin_false (hp : s.gpio.port n = some p) (hq : s'.gpio.port n = some q)
    (hmask : q.secureMask = p.secureMask &&& ~~~BitVec.twoPow 32 pin) :
    SetsPin n pin false s s' := by
  intro i hi
  rw [lineSecured_port hq, lineSecured_port hp, hmask]
  exact getLsbD_unsecured _ hi pin

theorem keepsPins_of_mask (hp : s.gpio.port n = some p) (hq : s'.gpio.port n = some q)
    (hmask : q.secureMask = p.secureMask) : KeepsPins n s s' := by
  intro i hi
  rw [lineSecured_port hq, lineSecured_port hp, hmask]

/-- A pin that has the bit already. -/
theorem setsPin_self {b : Bool} (h : s.lineSecured (.gpio n pin) = b) : SetsPin n pin b s s := by
  intro i hi
  by_cases hip : i = pin
  · rw [if_pos hip, hip, h]
  · rw [if_neg hip]

/-- The handler table is not the port. -/
theorem setHandler_port {d : IrqDesc} {h : Option Handler} {u : Unit}
    (hr : Code.Runs (setHandler d h) s w u s') : s'.gpio = s.gpio := by
  rw [setHandler, Code.runs_get_bind] at hr
  cases hc : (s.chip d.chip).handlers with
  | none => simp [hc] at hr
  | some table =>
    simp only [hc, Code.runs_modify] at hr
    rw [hr.2]

theorem modifyPort_port {f : Port → Port} {u : Unit} (h : Code.Runs (modifyPort n f) s w u s') :
    ∃ p, s.gpio.port n = some p ∧ s'.gpio.port n = some (f p) := by
  obtain ⟨-, p, hp, rfl⟩ := modifyPort_runs h
  exact ⟨p, hp, Function.update_self _ _ _⟩

theorem modifyPin_port {f : Port → Port} {r : Int} (h : Code.Runs (modifyPin n pin f) s w r s') :
    pin < 32 ∧ r = 0 ∧ ∃ p, s.gpio.port n = some p ∧ s'.gpio.port n = some (f p) := by
  rw [modifyPin, Code.runs_require_bind] at h
  obtain ⟨hlt, h⟩ := h
  obtain ⟨_, _, _, _, h₁, h₂, -⟩ := Code.runs_bind.mp h
  obtain ⟨-, rfl, rfl⟩ := Code.runs_pure.mp h₂
  exact ⟨hlt, rfl, modifyPort_port h₁⟩

end

/-! ## What each call does to the mask -/

section

variable {env : Env} {s s' : Sys} {w : List Event} {n pin : Nat}

theorem gpioAcquire_runs {isOutput ok : Bool}
    (h : Code.Runs (gpioAcquire n pin isOutput) s w ok s') :
    pin < 32 ∧ (ok = true → SetsPin n pin true s s') ∧ (ok = false → s' = s) := by
  rw [gpioAcquire, Code.runs_require_bind, Code.runs_get_bind] at h
  obtain ⟨hlt, h⟩ := h
  refine ⟨hlt, ?_⟩
  cases hp : s.gpio.port n with
  | none => simp [hp] at h
  | some p =>
    simp only [hp] at h
    rw [Code.runs_ite] at h
    split at h
    · obtain ⟨-, rfl, rfl⟩ := Code.runs_pure.mp h
      exact ⟨fun hok => absurd hok (by decide), fun _ => rfl⟩
    · obtain ⟨_, _, _, _, h₁, h₂, -⟩ := Code.runs_bind.mp h
      obtain ⟨-, rfl, rfl⟩ := Code.runs_pure.mp h₂
      obtain ⟨q, hq, hq'⟩ := modifyPort_port h₁
      exact ⟨fun _ => setsPin_true hq hq' rfl, fun hok => absurd hok (by decide)⟩

theorem gpioRelease_runs {ok : Bool} (h : Code.Runs (gpioRelease n pin) s w ok s') :
    pin < 32 ∧ SetsPin n pin false s s' := by
  rw [gpioRelease, Code.runs_require_bind, Code.runs_get_bind] at h
  obtain ⟨hlt, h⟩ := h
  refine ⟨hlt, ?_⟩
  cases hp : s.gpio.port n with
  | none => simp [hp] at h
  | some p =>
    simp only [hp] at h
    rw [Code.runs_ite] at h
    split at h
    · obtain ⟨_, _, _, _, h₁, h₂, -⟩ := Code.runs_bind.mp h
      obtain ⟨-, -, rfl⟩ := Code.runs_pure.mp h₂
      obtain ⟨q, hq, hq'⟩ := modifyPort_port h₁
      exact setsPin_false hq hq' rfl
    · rename_i hbit
      obtain ⟨-, -, rfl⟩ := Code.runs_pure.mp h
      apply setsPin_self
      rw [lineSecured_port hp]
      exact Bool.eq_false_iff.mpr hbit

theorem irqAdd_pin {flags : Word} {handler : Handler} {r : Int}
    (h : Code.Runs (irqAdd env ⟨.gpio n, pin⟩ flags handler) s w r s') :
    pin < 32 ∧ r = 0 ∧ SetsPin n pin true s s' := by
  obtain ⟨-, h⟩ := irqCheckValid_bind.mp h
  obtain ⟨_, _, s₁, _, h₁, h₂, -⟩ := Code.runs_bind.mp h
  have hgpio := setHandler_port h₁
  dsimp only at h₂
  rw [gpioOpAdd, Code.runs_get_bind] at h₂
  cases hty : s₁.gpio.hwtype with
  | none => simp [hty] at h₂
  | some ty =>
    simp only [hty] at h₂
    obtain ⟨hlt, hr, p, hp, hp'⟩ := modifyPin_port h₂
    rw [hgpio] at hp
    exact ⟨hlt, hr, setsPin_true hp hp' (Port.irqOpAdd_masks _ _ _ _).1⟩

theorem irqRemove_pin {r : Int} (h : Code.Runs (irqRemove ⟨.gpio n, pin⟩) s w r s') :
    pin < 32 ∧ r = 0 ∧ SetsPin n pin false s s' := by
  obtain ⟨-, h⟩ := irqCheckValid_bind.mp h
  obtain ⟨_, error, s₁, _, h₁, h₂, -⟩ := Code.runs_bind.mp h
  obtain ⟨hlt, rfl, p, hp, hp'⟩ := modifyPin_port h₁
  obtain ⟨_, _, s₂, _, h₃, h₄, -⟩ := Code.runs_bind.mp h₂
  obtain ⟨-, rfl, rfl⟩ := Code.runs_pure.mp h₄
  refine ⟨hlt, rfl, ?_⟩
  rcases Code.runs_runIf.mp h₃ with ⟨-, h₃⟩ | ⟨hno, -⟩
  · rw [← setHandler_port h₃] at hp'
    exact setsPin_false hp hp' rfl
  · exact absurd rfl hno

theorem irqSecure_pin {r : Int} (h : Code.Runs (irqSecure env ⟨.gpio n, pin⟩) s w r s') :
    pin < 32 ∧ r = 0 ∧ SetsPin n pin true s s' := by
  obtain ⟨-, h⟩ := irqCheckValid_bind.mp h
  obtain ⟨hlt, hr, p, hp, hp'⟩ := modifyPin_port h
  exact ⟨hlt, hr, setsPin_true hp hp' rfl⟩

theorem irqUnsecure_pin {r : Int} (h : Code.Runs (irqUnsecure ⟨.gpio n, pin⟩) s w r s') :
    pin < 32 ∧ r = 0 ∧ SetsPin n pin false s s' := by
  obtain ⟨-, h⟩ := irqCheckValid_bind.mp h
  obtain ⟨hlt, hr, p, hp, hp'⟩ := modifyPin_port h
  exact ⟨hlt, hr, setsPin_false hp hp' rfl⟩

theorem irqEnable_pin {r : Int} (h : Code.Runs (irqEnable env ⟨.gpio n, pin⟩) s w r s') :
    pin < 32 ∧ r = 0 ∧ KeepsPins n s s' := by
  obtain ⟨-, h⟩ := irqCheckValid_bind.mp h
  obtain ⟨hlt, hr, p, hp, hp'⟩ := modifyPin_port h
  exact ⟨hlt, hr, keepsPins_of_mask hp hp' rfl⟩

theorem irqDisable_pin {r : Int} (h : Code.Runs (irqDisable ⟨.gpio n, pin⟩) s w r s') :
    pin < 32 ∧ r = 0 ∧ KeepsPins n s s' := by
  obtain ⟨-, h⟩ := irqCheckValid_bind.mp h
  obtain ⟨hlt, hr, p, hp, hp'⟩ := modifyPin_port h
  exact ⟨hlt, hr, keepsPins_of_mask hp hp' rfl⟩

end

/-! ## Holders -/

/-- The three ways to take a pin. -/
inductive PinApi where
  | gpio
  | handler
  | security
  deriving DecidableEq

namespace PinCall

/-- What the call takes, if it succeeds. -/
def takes : PinCall → Option PinApi
  | .acquire _ _ => some .gpio
  | .add _ _ _ => some .handler
  | .secure _ => some .security
  | _ => none

/-- What the call gives back. -/
def givesBack : PinCall → Option PinApi
  | .release _ => some .gpio
  | .remove _ => some .handler
  | .unsecure _ => some .security
  | _ => none

/-- What the call does to the mask follows from what it takes or gives back. -/
theorem run_mask {env : Env} {n : Nat} {c : PinCall} {s s' : Sys} {w : List Event} {ok : Bool}
    (h : Code.Runs (c.run env n) s w ok s') : c.pin < 32 ∧
      if c.takes.isSome = true ∧ ok = true then SetsPin n c.pin true s s'
      else if c.givesBack.isSome = true then SetsPin n c.pin false s s'
      else KeepsPins n s s' := by
  cases c with
  | acquire pin isOutput =>
    obtain ⟨hlt, hyes, hno⟩ := gpioAcquire_runs h
    refine ⟨hlt, ?_⟩
    cases ok with
    | true => exact hyes rfl
    | false =>
      rw [hno rfl]
      intro i hi
      rfl
  | release pin =>
    obtain ⟨hlt, hset⟩ := gpioRelease_runs h
    exact ⟨hlt, hset⟩
  | add pin flags handler =>
    obtain ⟨_, r, _, _, h₁, h₂, -⟩ := Code.runs_bind.mp h
    obtain ⟨hlt, rfl, hset⟩ := irqAdd_pin h₁
    obtain ⟨-, rfl, rfl⟩ := Code.runs_pure.mp h₂
    exact ⟨hlt, hset⟩
  | remove pin =>
    obtain ⟨_, r, _, _, h₁, h₂, -⟩ := Code.runs_bind.mp h
    obtain ⟨hlt, rfl, hset⟩ := irqRemove_pin h₁
    obtain ⟨-, rfl, rfl⟩ := Code.runs_pure.mp h₂
    exact ⟨hlt, hset⟩
  | secure pin =>
    obtain ⟨_, r, _, _, h₁, h₂, -⟩ := Code.runs_bind.mp h
    obtain ⟨hlt, rfl, hset⟩ := irqSecure_pin h₁
    obtain ⟨-, rfl, rfl⟩ := Code.runs_pure.mp h₂
    exact ⟨hlt, hset⟩
  | unsecure pin =>
    obtain ⟨_, r, _, _, h₁, h₂, -⟩ := Code.runs_bind.mp h
    obtain ⟨hlt, rfl, hset⟩ := irqUnsecure_pin h₁
    obtain ⟨-, rfl, rfl⟩ := Code.runs_pure.mp h₂
    exact ⟨hlt, hset⟩
  | enable pin =>
    obtain ⟨_, r, _, _, h₁, h₂, -⟩ := Code.runs_bind.mp h
    obtain ⟨hlt, rfl, hkeep⟩ := irqEnable_pin h₁
    obtain ⟨-, rfl, rfl⟩ := Code.runs_pure.mp h₂
    exact ⟨hlt, hkeep⟩
  | disable pin =>
    obtain ⟨_, r, _, _, h₁, h₂, -⟩ := Code.runs_bind.mp h
    obtain ⟨hlt, rfl, hkeep⟩ := irqDisable_pin h₁
    obtain ⟨-, rfl, rfl⟩ := Code.runs_pure.mp h₂
    exact ⟨hlt, hkeep⟩

end PinCall

/-- A pin that an owner has taken and not given back. -/
structure Holding (ω : Type) where
  owner : ω
  api : PinApi
  pin : Nat
  deriving DecidableEq

namespace PinCall

variable {ω : Type} [DecidableEq ω]

/-- The holdings after a call of the owner `o`. -/
def held (c : PinCall) (o : ω) (ok : Bool) (X : List (Holding ω)) : List (Holding ω) :=
  match c.takes, c.givesBack with
  | some api, _ => if ok then ⟨o, api, c.pin⟩ :: X else X
  | none, some api => X.erase ⟨o, api, c.pin⟩
  | none, none => X

/-- The owner gives back only what it holds. -/
def Owned (c : PinCall) (o : ω) (X : List (Holding ω)) : Prop :=
  ∀ api ∈ c.givesBack, ⟨o, api, c.pin⟩ ∈ X

/-- The owner gives back the last holding of the pin. -/
def Last (c : PinCall) (o : ω) (X : List (Holding ω)) : Prop :=
  ∀ api ∈ c.givesBack, ∀ h ∈ X.erase ⟨o, api, c.pin⟩, h.pin ≠ c.pin

end PinCall

section Runs

variable {ω : Type} [DecidableEq ω]

/-- A call of an owner on a pin of the `n`-th port. -/
def PinStep (env : Env) (n : Nat) (x : Sys × List (Holding ω)) (a : ω × PinCall)
    (y : Sys × List (Holding ω)) : Prop :=
  a.2.Owned a.1 x.2 ∧
    ∃ w ok, Code.Runs (a.2.run env n) x.1 w ok y.1 ∧ y.2 = a.2.held a.1 ok x.2

/-- A pin is in `secure_mask` exactly if somebody holds it. -/
def PinsHeld (n : Nat) (x : Sys × List (Holding ω)) : Prop :=
  Flagged (· < 32) Holding.pin (fun i => x.1.lineSecured (.gpio n i)) x.2

variable {env : Env} {n : Nat} {x y : Sys × List (Holding ω)} {o : ω} {c : PinCall}

/-- After a call the mask is right exactly if the call gave back the last holding, or none. -/
theorem pinStep_iff (hx : PinsHeld n x) (h : PinStep env n x (o, c) y) :
    PinsHeld n y ↔ c.Last o x.2 := by
  obtain ⟨-, w, ok, hrun, hheld⟩ := h
  obtain ⟨hlt, hmask⟩ := PinCall.run_mask hrun
  unfold PinsHeld
  rw [hheld]
  unfold PinCall.held PinCall.Last
  cases htake : c.takes with
  | some api =>
    have hback : c.givesBack = none := by
      cases c <;> first | rfl | cases htake
    rw [htake, hback] at hmask
    simp only [hback]
    refine ⟨fun _ api hapi => absurd hapi (by simp), fun _ => ?_⟩
    cases ok with
    | true =>
      rw [if_pos rfl]
      exact hx.take fun i hi => hmask i hi
    | false => exact hx.of_eq fun i hi => hmask i hi
  | none =>
    rw [htake] at hmask
    cases hback : c.givesBack with
    | none =>
      rw [hback] at hmask
      refine ⟨fun _ api hapi => absurd hapi (by simp), fun _ => ?_⟩
      exact hx.of_eq fun i hi => hmask i hi
    | some api =>
      rw [hback] at hmask
      have hiff := hx.drop_iff (a := ⟨o, api, c.pin⟩) hlt fun i hi => hmask i hi
      simp only [Option.mem_some_iff, forall_eq']
      exact hiff

/-- In every run in which nobody gives a pin back that is still held, the mask is right in every
state; and the first call that gives back such a pin makes it wrong. -/
theorem pins_held_iff {as : List (ω × PinCall)} (hx : PinsHeld n x)
    (h : Steps (fun x a y => PinStep env n x a y ∧ a.2.Last a.1 x.2) x as y) :
    PinsHeld n y ∧
      ∀ o c z, PinStep env n y (o, c) z → (PinsHeld n z ↔ c.Last o y.2) := by
  have hy : PinsHeld n y := by
    refine h.invariant (fun a _ x y hstep hheld => ?_) hx
    exact (pinStep_iff hheld hstep.1).mpr hstep.2
  exact ⟨hy, fun o c z hstep => pinStep_iff hy hstep⟩

/-- The step of a call that succeeds. -/
theorem pinStep_after {s s' : Sys} {X : List (Holding ω)} {ok : Bool}
    (hs : s' = (c.run env n).after s) (hown : c.Owned o X)
    (h : ((c.run env n).out s).map (fun r => r.1) = some ok) :
    PinStep env n (s, X) (o, c) (s', c.held o ok X) := by
  obtain ⟨w, b, t, hrun, rfl⟩ := Code.runs_of_out (f := fun b => b) h
  obtain ⟨-, ht⟩ := hrun.succeeds_after
  rw [hs, ht]
  exact ⟨hown, w, b, hrun, rfl⟩

omit [DecidableEq ω] in
theorem pinsHeld_of_forall {s : Sys} {X : List (Holding ω)}
    (h : ∀ i < 32, s.lineSecured (.gpio n i) = decide (∃ a ∈ X, a.pin = i)) : PinsHeld n (s, X) := by
  intro i hi
  change s.lineSecured (.gpio n i) = true ↔ ∃ a ∈ X, a.pin = i
  rw [h i hi]
  exact decide_eq_true_iff

omit [DecidableEq ω] in
theorem PinsHeld.bit {s : Sys} {X : List (Holding ω)} {a : Holding ω} (h : PinsHeld n (s, X))
    (ha : a ∈ X) (hi : a.pin < 32) : s.lineSecured (.gpio n a.pin) = true :=
  (h a.pin hi).mpr ⟨a, ha, rfl⟩

end Runs

namespace Board

/-- The key driver, which is the owner 0, holds the pins of both keys. -/
def keyPins : List (Holding Nat) := [⟨0, .handler, 5⟩, ⟨0, .handler, 4⟩]

/-- A device whose interrupt is the pin of the HOMEPAGE key. -/
def shared : Device :=
  onBus 7 0x021F8000 0x4000 { node := 7, resourceType := .mem, irqs := [⟨⟨.gpio 0, 5⟩, 4⟩] }

/-- The state after a call on the port. -/
def called (c : PinCall) (s : Sys) : Sys := (c.run imx6 0).after s

def pinAcquired : Sys := called (.acquire 7 true) (booted imx6 0)
def pinReleased : Sys := called (.release 7) pinAcquired
def keySecured : Sys := called (.secure 5) (booted imx6 0)
def keyUnsecured : Sys := called (.unsecure 5) keySecured

/-- The device is disabled and enabled again. -/
def sharedAgain : Sys :=
  (dtEnableDevice imx6 shared true).after ((dtEnableDevice imx6 shared false).after (booted imx6 0))

theorem keyPins_held : PinsHeld 0 (booted imx6 0, keyPins) := pinsHeld_of_forall (by decide +kernel)

end Board

theorem pins_held_iff_acquire : PinsHeld 0 (Board.pinReleased, Board.keyPins) ∧
    ∀ o c z, PinStep imx6 0 (Board.pinReleased, Board.keyPins) (o, c) z →
      (PinsHeld 0 z ↔ c.Last o Board.keyPins) := by
  have hacquire : PinStep imx6 0 (Board.booted imx6 0, Board.keyPins) (1, .acquire 7 true)
      (Board.pinAcquired, ⟨1, .gpio, 7⟩ :: Board.keyPins) :=
    @pinStep_after _ _ _ _ _ (.acquire 7 true) _ _ _ true rfl (fun _ hapi => by cases hapi)
      (by decide +kernel)
  have hrelease : PinStep imx6 0 (Board.pinAcquired, ⟨1, .gpio, 7⟩ :: Board.keyPins) (1, .release 7)
      (Board.pinReleased, Board.keyPins) :=
    @pinStep_after _ _ _ _ _ (.release 7) _ _ _ true rfl (fun _ hapi => by cases hapi; decide)
      (by decide +kernel)
  exact pins_held_iff Board.keyPins_held
    (.cons ⟨hacquire, fun _ hapi => by cases hapi⟩
      (.cons ⟨hrelease, fun _ hapi => by cases hapi; decide⟩ (.nil _)))

/-- A device whose interrupt is the pin of a key is disabled and enabled again: the handler of the
key is still there, but its pin is no longer secured. -/
theorem unsecure_exposes_key :
    PinsHeld 0 (Board.booted imx6 0, Board.keyPins) ∧
      Steps (PinStep imx6 0) (Board.booted imx6 0, Board.keyPins) [(1, .secure 5), (1, .unsecure 5)]
        (Board.keyUnsecured, Board.keyPins) ∧
      ¬ PinsHeld 0 (Board.keyUnsecured, Board.keyPins) ∧
      Board.sharedAgain.lineSecured (.gpio 0 5) = false ∧
      ((Board.sharedAgain.chip (.gpio 0)).handlers.bind (· 5)) = some (.button 0) := by
  have hsecure : PinStep imx6 0 (Board.booted imx6 0, Board.keyPins) (1, .secure 5)
      (Board.keySecured, ⟨1, .security, 5⟩ :: Board.keyPins) :=
    @pinStep_after _ _ _ _ _ (.secure 5) _ _ _ true rfl (fun _ hapi => by cases hapi)
      (by decide +kernel)
  have hunsecure : PinStep imx6 0 (Board.keySecured, ⟨1, .security, 5⟩ :: Board.keyPins)
      (1, .unsecure 5) (Board.keyUnsecured, Board.keyPins) :=
    @pinStep_after _ _ _ _ _ (.unsecure 5) _ _ _ true rfl (fun _ hapi => by cases hapi; decide)
      (by decide +kernel)
  refine ⟨Board.keyPins_held, .cons hsecure (.cons hunsecure (.nil _)), fun hheld => ?_,
    by decide +kernel, by decide +kernel⟩
  have hset := hheld.bit (a := ⟨0, .handler, 5⟩) (by decide) (by decide)
  have hclear : Board.keyUnsecured.lineSecured (.gpio 0 5) = false := by decide +kernel
  rw [hclear] at hset
  cases hset

end SeCloak
