import SeCloak.Kernel.Interrupt

/-!
# Keys (`imx_gpio_keys.c`)

The key driver hands every press to a list of button handlers: the one of the secure power key
sequence, which registers itself at boot, and the one of the cloak entry. The interrupts of the
keys are taken when the first handler arrives and given back when the last one leaves.
-/

namespace SeCloak
open Misc

/-- `KEY_*` (`imx_gpio_keys.h:4-9`). -/
def keyVolumedown : Word := 114
def keyVolumeup : Word := 115
def keyBack : Word := 158
def keyHomepage : Word := 172

/-! ## Handlers -/

/-- `cloak_button_press_handler` (`entry.c:167-181`). -/
def cloakButtonPressHandler (code : Word) : Kernel Bool := do
  Code.modify fun s => { s with cloak := { s.cloak with
    confirmStatus :=
      if code = keyHomepage then .allow else if code = keyBack then .deny
      else s.cloak.confirmStatus } }
  pure true

/-- The next state of `secpwr_button_press_handler` (`imx_gpio_keys.c:106-140`). -/
def secpwrNext (st : SecpwrState) (code : Word) : SecpwrState :=
  match st with
  | .state0 => if code = keyHomepage then .state1 else .state0
  | .state1 =>
    if code = keyBack then .state2 else if code = keyHomepage then .state1 else .state0
  | .state2 =>
    if code = keyVolumeup then .state3 else if code = keyBack then .state2 else .state0
  | .state3 =>
    -- the shutdown itself is still to be done in the source
    if code = keyVolumedown then .state0 else if code = keyVolumeup then .state3 else .state0

/-- `secpwr_button_press_handler` (`imx_gpio_keys.c:106-140`). -/
def secpwrButtonPressHandler (code : Word) : Kernel Bool := do
  Code.modify fun s => { s with secpwr := secpwrNext s.secpwr code }
  pure false

/-- `on_press` of a handler. -/
def ButtonHandler.onPress : ButtonHandler → Word → Kernel Bool
  | .cloak => cloakButtonPressHandler
  | .secpwr => secpwrButtonPressHandler

/-- The loop of `gpio_keys_handler` (`imx_gpio_keys.c:56-58`). -/
def pressAll (code : Word) : List ButtonHandler → Bool → Kernel Bool
  | [], consume => pure consume
  | bh :: hs, consume => do
    let c ← bh.onPress code
    pressAll code hs (consume || c)

/-- `gpio_keys_handler` (`imx_gpio_keys.c:51-61`): whether the press is consumed. -/
def gpioKeysHandler (code : Word) : Kernel Bool := do
  let s ← Code.get
  match s.keys with
  | none => Code.throw .undefined
  | some k => pressAll code k.handlers false

/-! ## Acquire and release -/

/-- The descriptor of the interrupt of a button; its chip is NULL if it was not parsed. -/
def KeysData.desc? (k : KeysData) (b : Nat) : Option IrqDesc :=
  match k.buttons with
  | none => none
  | some buttons =>
    match buttons[b]? with
    | none => none
    | some button => button.chip.map fun chip => ⟨chip, button.irq⟩

/-- The body `f` for each button (`imx_gpio_keys.c:65-72` and `89-93`); `irq_add` and
`irq_disable` look at the chip first. -/
def forEachButton (k : KeysData) (f : Nat → IrqDesc → Kernel Unit) : Kernel Unit :=
  Code.forEach (fun b =>
    match k.desc? b with
    | none => Code.throw .undefined
    | some desc => f b desc) (List.range k.nbuttons)

def setHandlers (handlers : List ButtonHandler) : Kernel Unit :=
  Code.modify fun s => { s with keys := s.keys.map fun k => { k with handlers := handlers } }

/-- `gpio_keys_acquire` (`imx_gpio_keys.c:63-78`). -/
def gpioKeysAcquire (env : Env) (handler : ButtonHandler) : Kernel Bool := do
  let s ← Code.get
  match s.keys with
  | none => Code.throw .undefined
  | some k =>
    Code.runIf (k.handlers = []) (forEachButton k fun b desc => do
      let _ ← irqAdd env desc 0x3 (.button b)
      let _ ← irqEnable env desc
      pure ())
    setHandlers (handler :: k.handlers)
    pure true

/-- `gpio_keys_release` (`imx_gpio_keys.c:80-95`). -/
def gpioKeysRelease (handler : ButtonHandler) : Kernel Unit := do
  let s ← Code.get
  match s.keys with
  | none => Code.throw .undefined
  | some k =>
    let handlers := k.handlers.filter (· ≠ handler)
    setHandlers handlers
    Code.runIf (handlers = []) (forEachButton k fun _ desc => do
      let _ ← irqDisable desc
      let _ ← irqRemove desc
      pure ())

/-! ## Probing -/

/-- The cells of a `gpios` property: the chip its phandle leads to, if any, and the cells after
it. -/
structure GpioSpec where
  chip : Option ChipId
  c0 : Word
  c1 : Word
  c2 : Word

/-- A subnode of the `gpio-keys` node; `none` is a property that is missing. -/
structure KeyNode where
  code : Option Word
  gpios : Option GpioSpec

def setButton (n : Nat) (b : KeysButton) : Kernel Unit :=
  Code.modify fun s => { s with keys := s.keys.map fun k =>
    { k with buttons := k.buttons.map fun bs => bs.set n b } }

/-- The loop of `gpio_keys_probe` (`imx_gpio_keys.c:175-199`) from the `n`-th button on, and
whether all buttons were parsed. -/
def gpioKeysParse : Nat → List KeyNode → Kernel Bool
  | _, [] => pure true
  | n, node :: nodes =>
    match node.code with
    | none => pure false
    | some code => do
      setButton n { code := code }
      match node.gpios with
      | none => Code.throw .undefined
      | some spec =>
        match spec.chip with
        | none => pure false
        | some chip => do
          let (irq, flags) := irqMap chip spec.c0 spec.c1 spec.c2
          setButton n { code := code, chip := some chip, irq := irq, flags := flags }
          gpioKeysParse (n + 1) nodes

/-- `gpio_keys_probe` (`imx_gpio_keys.c:146-212`). -/
def gpioKeysProbe (env : Env) (nodes : List KeyNode) : Kernel Int :=
  if nodes = [] then pure enodev
  else do
    let ok ← malloc env
    Code.modify fun s => { s with
      keys := if ok then some { nbuttons := nodes.length, buttons := none } else none }
    if ok = false then pure enomem
    else do
      let ok ← malloc env
      if ok = false then pure enomem
      else do
        let data : KeysData :=
          { nbuttons := nodes.length, buttons := some (List.replicate nodes.length {}) }
        Code.modify fun s => { s with keys := some data }
        let parsed ← gpioKeysParse 0 nodes
        if parsed = false then pure einval
        else do
          let _ ← gpioKeysAcquire env .secpwr
          pure 0

end SeCloak
