import SeCloak.Drivers.GpioPins
import SeCloak.Drivers.GpioServe
import SeCloak.Misc.Slist
import Mathlib.Data.Finset.Card
import Mathlib.Data.Finset.Insert

/-!
# Handlers that share the keys (`imx_gpio_keys.c:51-95`)

The handlers are the elements of an intrusive list, and any number of them may come and go. The
interrupts of the buttons are added with the first handler and removed with the last one, so that
after each call they are in step with the list (`keys_shared`).
-/

namespace SeCloak
open Misc Misc.Code

/-! ## The driver over its list -/

section Driver

variable {η : Type}

/-- The loop of `gpio_keys_handler` (`imx_gpio_keys.c:56-58`) from the handler `p` on. -/
def pressFrom (onPress : η → Word → Kernel Bool) (code : Word) (next : η → Option η) :
    Nat → Option η → Bool → Kernel Bool
  | _, none, consume => pure consume
  | 0, some _, _ => Code.throw .undefined
  | fuel + 1, some bh, consume => do
    let c ← onPress bh code
    pressFrom onPress code next fuel (next bh) (consume || c)

/-- `gpio_keys_handler` (`imx_gpio_keys.c:51-61`) for the interrupt of the `b`-th button. The list
and the code of the button are static in the driver, so that no handler changes them. -/
def keysHandler (onPress : η → Word → Kernel Bool) (fuel : Nat) (l : Slist η) (b : Nat) :
    Kernel IrqReturn := do
  let s ← Code.get
  match s.keys.bind (·.buttons) with
  | none => Code.throw .undefined
  | some buttons =>
    match buttons[b]? with
    | none => Code.throw .undefined
    | some button => do
      let consume ← pressFrom onPress button.code l.next fuel l.first false
      pure (if consume then .handled else .handledPass)

/-- The handlers of pins, where those of buttons call the handlers of the list. -/
def listHandler (onPress : η → Word → Kernel Bool) (fuel : Nat) (l : Slist η) :
    Handler → Kernel IrqReturn
  | .button b => keysHandler onPress fuel l b
  | .port _ | .portHigh _ => pure .handled

/-- The loop of `gpio_keys_acquire` (`imx_gpio_keys.c:65-72`). -/
def addButtons (env : Env) (k : KeysData) : Kernel Unit :=
  forEachButton k fun b desc => do
    let _ ← irqAdd env desc 0x3 (.button b)
    let _ ← irqEnable env desc
    pure ()

/-- The loop of `gpio_keys_release` (`imx_gpio_keys.c:89-93`). -/
def removeButtons (k : KeysData) : Kernel Unit :=
  forEachButton k fun _ desc => do
    let _ ← irqDisable desc
    let _ ← irqRemove desc
    pure ()

variable [DecidableEq η]

/-- `gpio_keys_acquire` (`imx_gpio_keys.c:63-78`). -/
def keysAcquire (env : Env) (handler : η) (l : Slist η) : Kernel (Bool × Slist η) := do
  let s ← Code.get
  match s.keys with
  | none => Code.throw .undefined
  | some k =>
    Code.runIf (l.first = none) (addButtons env k)
    pure (true, l.insertHead handler)

/-- `gpio_keys_release` (`imx_gpio_keys.c:80-95`). -/
def keysRelease (fuel : Nat) (handler : η) (l : Slist η) : Kernel (Slist η) := do
  let s ← Code.get
  match s.keys with
  | none => Code.throw .undefined
  | some k =>
    match Slist.removeEach fuel handler fuel l.first l with
    | none => Code.throw .undefined
    | some l =>
      Code.runIf (l.first = none) (removeButtons k)
      pure l

end Driver

/-! ## Calls -/

/-- A call of the key driver. -/
inductive KeysCall (η : Type) where
  | acquire (handler : η)
  | release (handler : η)

namespace KeysCall

variable {η : Type} [DecidableEq η]

def run (env : Env) (fuel : Nat) (l : Slist η) : KeysCall η → Kernel (Slist η)
  | .acquire handler => do
    let r ← keysAcquire env handler l
    pure r.2
  | .release handler => keysRelease fuel handler l

/-- The call is allowed while the handlers `X` are registered. -/
def Allowed (X : Finset η) : KeysCall η → Prop
  | .acquire handler => handler ∉ X
  | .release handler => handler ∈ X

instance (X : Finset η) : (c : KeysCall η) → Decidable (c.Allowed X)
  | .acquire handler => inferInstanceAs (Decidable (handler ∉ X))
  | .release handler => inferInstanceAs (Decidable (handler ∈ X))

/-- The handlers that are registered after the call. -/
def held (X : Finset η) : KeysCall η → Finset η
  | .acquire handler => insert handler X
  | .release handler => X.erase handler

/-- Each call is allowed when it is made. -/
def AllAllowed (X : Finset η) : List (KeysCall η) → Prop
  | [] => True
  | c :: calls => c.Allowed X ∧ AllAllowed (c.held X) calls

def runAll (env : Env) (fuel : Nat) (l : Slist η) : List (KeysCall η) → Kernel (Slist η)
  | [] => pure l
  | c :: calls => do
    let l ← c.run env fuel l
    runAll env fuel l calls

end KeysCall

/-! ## Pins -/

/-- The handler of a pin, and whether its interrupt is unmasked. -/
def Sys.pinState (s : Sys) (n i : Nat) : Option Handler × Bool :=
  ((s.chip (.gpio n)).handlers.bind (· i), s.lineEnabled (.gpio n i))

/-- `i` is a pin of the port `p`, which is the `n`-th, and `table` are the handlers of its pins. -/
structure Sys.HasPin (s : Sys) (n i : Nat) (table : Nat → Option Handler) (p : Port) : Prop where
  lt : i < 32
  valid : i < (s.chip (.gpio n)).numIrqs
  table : (s.chip (.gpio n)).handlers = some table
  port : s.gpio.port n = some p

/-- A handler table and a port in the place of those of the `n`-th port. -/
def Sys.withPins (s : Sys) (n : Nat) (table : Nat → Option Handler) (p : Port) : Sys :=
  { s with
    chip := Function.update s.chip (.gpio n) { s.chip (.gpio n) with handlers := some table }
    gpio := { s.gpio with port := Function.update s.gpio.port n (some p) } }

section Pins

variable {s : Sys} {n i : Nat} {table t : Nat → Option Handler} {p q : Port}

theorem withPins_withPins : (s.withPins n table p).withPins n t q = s.withPins n t q := by
  simp [Sys.withPins]

theorem Sys.HasPin.withPins (h : s.HasPin n i table p) :
    (s.withPins n t q).HasPin n i t q where
  lt := h.lt
  valid := by simpa [Sys.withPins] using h.valid
  table := by simp [Sys.withPins]
  port := by simp [Sys.withPins]

theorem Sys.HasPin.of_withPins (m j : Nat) {r : Port}
    (h : s.HasPin m j t r) : ∃ t' r', (s.withPins n table p).HasPin m j t' r' := by
  by_cases hm : m = n
  · subst hm
    exact ⟨table, p, h.withPins⟩
  · have hchip : ChipId.gpio m ≠ .gpio n := fun heq => hm (ChipId.gpio.inj heq)
    refine ⟨t, r, h.lt, ?_, ?_, ?_⟩
    · simpa [Sys.withPins, hchip] using h.valid
    · simpa [Sys.withPins, hchip] using h.table
    · simpa [Sys.withPins, hm] using h.port

/-- A new handler for the pin, and a new mask bit. -/
theorem pinState_withPins (h : s.HasPin n i table p) {x : Option Handler} {on : Bool}
    (hq : ∀ j < 32, q.regs.imr.getLsbD j = if j = i then on else p.regs.imr.getLsbD j) {m j : Nat}
    (hj : j < 32) : (s.withPins n (Function.update table i x) q).pinState m j =
      if m = n ∧ j = i then (x, on) else s.pinState m j := by
  by_cases hm : m = n
  · subst hm
    have hnew : (s.withPins m (Function.update table i x) q).pinState m j =
        (Function.update table i x j, q.regs.imr.getLsbD j) := by
      simp [Sys.pinState, Sys.withPins, Sys.lineEnabled]
    have hold : s.pinState m j = (table j, p.regs.imr.getLsbD j) := by
      simp [Sys.pinState, Sys.lineEnabled, h.table, h.port]
    rw [hnew, hold, hq j hj]
    by_cases hji : j = i
    · subst hji
      simp
    · simp [hji]
  · have hchip : ChipId.gpio m ≠ .gpio n := fun heq => hm (ChipId.gpio.inj heq)
    rw [if_neg fun hmj => hm hmj.1]
    simp [Sys.pinState, Sys.withPins, Sys.lineEnabled, hm, hchip]

theorem returns_modifyPin {f : Port → Port} (h : s.HasPin n i table p) :
    Returns (modifyPin n i f) s fun r s' => r = 0 ∧ s' = s.withPins n table (f p) := by
  have htable : Function.update s.chip (.gpio n)
      { s.chip (.gpio n) with handlers := some table } = s.chip := by
    rw [← h.table]
    exact Function.update_eq_self _ _
  rw [modifyPin]
  apply returns_require_bind h.lt
  rw [modifyPort, bind_assoc_eq]
  apply returns_get_bind
  rw [h.port]
  refine returns_bind (P := fun _ s' => s' = s.withPins n table (f p)) (returns_modify ?_)
    fun _ s' hs' => returns_pure ⟨rfl, hs'⟩
  rw [Sys.withPins, htable]

theorem returns_setHandler {x : Option Handler} (h : s.HasPin n i table p) :
    Returns (setHandler ⟨.gpio n, i⟩ x) s fun _ s' =>
      s' = s.withPins n (Function.update table i x) p := by
  rw [setHandler]
  apply returns_get_bind
  simp only [h.table]
  refine returns_modify ?_
  have hport : Function.update s.gpio.port n (some p) = s.gpio.port := by
    rw [← h.port]
    exact Function.update_eq_self _ _
  rw [Sys.withPins, hport]

theorem returns_irqCheckValid_bind {α : Type} {f : Unit → Kernel α} {Q : α → Sys → Prop}
    (h : s.HasPin n i table p) (hf : Returns (f ()) s Q) :
    Returns (irqCheckValid ⟨.gpio n, i⟩ >>= f) s Q := by
  rw [irqCheckValid, bind_assoc_eq]
  apply returns_get_bind
  exact returns_require_bind h.valid hf

/-- `irq_add` and `irq_enable` of a button. -/
theorem returns_addButton {env : Env} {hw : HwType} {flags : Word} {x : Handler}
    (h : s.HasPin n i table p) (hhw : s.gpio.hwtype = some hw) :
    Returns (do
      let _ ← irqAdd env ⟨.gpio n, i⟩ flags x
      let _ ← irqEnable env ⟨.gpio n, i⟩
      pure () : Kernel Unit) s fun _ s' =>
        s' = s.withPins n (Function.update table i (some x))
          ((p.irqOpAdd (hwData hw) i flags).irqMask i false) := by
  refine returns_bind (P := fun _ s' => s' = s.withPins n (Function.update table i (some x))
    (p.irqOpAdd (hwData hw) i flags)) ?_ fun _ s₁ hs₁ => ?_
  · refine returns_irqCheckValid_bind h (returns_bind (returns_setHandler h) fun _ s₁ hs₁ => ?_)
    subst hs₁
    dsimp only
    rw [gpioOpAdd]
    apply returns_get_bind
    have hhw₁ : (s.withPins n (Function.update table i (some x)) p).gpio.hwtype = some hw := hhw
    rw [hhw₁]
    exact (returns_modifyPin h.withPins).imp fun _ s' hs' => hs'.2.trans withPins_withPins
  · subst hs₁
    have hpin := h.withPins (t := Function.update table i (some x))
      (q := p.irqOpAdd (hwData hw) i flags)
    refine returns_bind (returns_irqCheckValid_bind hpin (returns_modifyPin hpin)) ?_
    exact fun _ s' hs' => returns_pure (hs'.2.trans withPins_withPins)

/-- `irq_disable` and `irq_remove` of a button. -/
theorem returns_removeButton (h : s.HasPin n i table p) :
    Returns (do
      let _ ← irqDisable ⟨.gpio n, i⟩
      let _ ← irqRemove ⟨.gpio n, i⟩
      pure () : Kernel Unit) s fun _ s' =>
        s' = s.withPins n (Function.update table i none) ((p.irqMask i true).irqOpUnsecure i) := by
  refine returns_bind (returns_irqCheckValid_bind h (returns_modifyPin h)) fun _ s₁ hs₁ => ?_
  obtain ⟨-, rfl⟩ := hs₁
  have hpin := h.withPins (t := table) (q := p.irqMask i true)
  refine returns_bind (P := fun _ s' => s' = s.withPins n (Function.update table i none)
    ((p.irqMask i true).irqOpUnsecure i)) ?_ fun _ s' hs' => returns_pure hs'
  refine returns_irqCheckValid_bind hpin
    (returns_bind (returns_modifyPin hpin) fun error s₂ hs₂ => ?_)
  obtain ⟨rfl, rfl⟩ := hs₂
  rw [withPins_withPins]
  have hpin' := h.withPins (t := table) (q := (p.irqMask i true).irqOpUnsecure i)
  refine returns_bind (returns_runIf (fun _ => returns_setHandler hpin')
    fun hne => absurd rfl hne) fun _ s₃ hs₃ => returns_pure ?_
  exact hs₃.trans withPins_withPins

end Pins

/-! ## The buttons -/

/-- The buttons are on different pins of ports that exist. -/
structure Sys.KeysWired (s : Sys) (k : KeysData) : Prop where
  keys : s.keys = some k
  hwtype : s.gpio.hwtype.isSome = true
  pin : ∀ b < k.nbuttons, ∃ n i table p, k.desc? b = some ⟨.gpio n, i⟩ ∧ s.HasPin n i table p
  distinct : ∀ b < k.nbuttons, ∀ b' < k.nbuttons, k.desc? b = k.desc? b' → b = b'

/-- The interrupt of the `b`-th button is unmasked and has the handler of the button, or it is
masked and has none. -/
def Sys.ButtonSet (s : Sys) (k : KeysData) (on : Bool) (b : Nat) : Prop :=
  ∀ n i, k.desc? b = some ⟨.gpio n, i⟩ →
    s.pinState n i = (if on = true then some (.button b) else none, on)

def Sys.ButtonsSet (s : Sys) (k : KeysData) (on : Bool) : Prop :=
  ∀ b < k.nbuttons, s.ButtonSet k on b

section Buttons

variable {env : Env} {s : Sys} {k : KeysData} {on : Bool}

theorem Sys.KeysWired.withPins (h : s.KeysWired k) {n : Nat} {table : Nat → Option Handler}
    {p : Port} : (s.withPins n table p).KeysWired k where
  keys := h.keys
  hwtype := h.hwtype
  pin b hb := by
    obtain ⟨m, j, t, r, hdesc, hpin⟩ := h.pin b hb
    obtain ⟨t', r', hpin'⟩ := hpin.of_withPins m j
    exact ⟨m, j, t', r', hdesc, hpin'⟩
  distinct := h.distinct

/-- A loop over the buttons whose body sets the button it is at. -/
theorem returns_forEachButton {f : Nat → IrqDesc → Kernel Unit} (h : s.KeysWired k)
    (hf : ∀ {b n i table p s}, s.HasPin n i table p → s.gpio.hwtype.isSome = true →
      Returns (f b ⟨.gpio n, i⟩) s fun _ s' => ∃ q,
        s' = s.withPins n (Function.update table i (if on = true then some (.button b) else none)) q ∧
          ∀ j < 32, q.regs.imr.getLsbD j = if j = i then on else p.regs.imr.getLsbD j) :
    Returns (forEachButton k f) s fun _ s' => s'.KeysWired k ∧ s'.ButtonsSet k on := by
  refine (returns_forEach (P := fun s => s.KeysWired k)
    (D := fun b s => b < k.nbuttons → s.ButtonSet k on b) h fun b hb s h => ?_).imp ?_
  · have hb := List.mem_range.mp hb
    obtain ⟨n, i, table, p, hdesc, hpin⟩ := h.pin b hb
    simp only [hdesc]
    refine (hf hpin h.hwtype).imp fun _ s' hs' => ?_
    obtain ⟨q, rfl, hq⟩ := hs'
    refine ⟨h.withPins, fun _ m j hmj => ?_, fun b' hset hb' m j hmj => ?_⟩
    · obtain ⟨hm, rfl⟩ := IrqDesc.mk.inj (Option.some.inj (hdesc.symm.trans hmj))
      obtain rfl := ChipId.gpio.inj hm
      rw [pinState_withPins hpin hq hpin.lt, if_pos ⟨rfl, rfl⟩]
    · obtain ⟨m', j', _, _, hdesc', hpin'⟩ := h.pin b' hb'
      have hj : j' = j := (IrqDesc.mk.inj (Option.some.inj (hdesc'.symm.trans hmj))).2
      rw [pinState_withPins hpin hq (hj ▸ hpin'.lt)]
      by_cases hsame : m = n ∧ j = i
      · obtain ⟨rfl, rfl⟩ := hsame
        obtain rfl := h.distinct b hb b' hb' (hdesc.trans hmj.symm)
        rw [if_pos ⟨rfl, rfl⟩]
      · rw [if_neg hsame]
        exact hset hb' m j hmj
  · exact fun _ s' hs' => ⟨hs'.1, fun b hb => hs'.2.1 b (List.mem_range.mpr hb) hb⟩

theorem returns_addButtons (h : s.KeysWired k) :
    Returns (addButtons env k) s fun _ s' => s'.KeysWired k ∧ s'.ButtonsSet k true := by
  refine returns_forEachButton h fun {b n i table p s} hpin hhw => ?_
  obtain ⟨hw, hhw⟩ := Option.isSome_iff_exists.mp hhw
  refine (returns_addButton hpin hhw).imp fun _ s' hs' => ⟨_, hs', fun j hj => ?_⟩
  change ((p.irqOpAdd (hwData hw) i 0x3).regs.imr ||| BitVec.twoPow 32 i).getLsbD j = _
  rw [getLsbD_secured _ hj, (Port.irqOpAdd_masks _ _ _ _).2, getLsbD_unsecured _ hj]
  split_ifs <;> rfl

theorem returns_removeButtons (h : s.KeysWired k) :
    Returns (removeButtons k) s fun _ s' => s'.KeysWired k ∧ s'.ButtonsSet k false := by
  refine returns_forEachButton h fun {b n i table p s} hpin _ => ?_
  refine (returns_removeButton hpin).imp fun _ s' hs' => ⟨_, hs', fun j hj => ?_⟩
  exact getLsbD_unsecured p.regs.imr hj i

end Buttons

/-! ## The list and the buttons -/

section Calls

variable {η : Type} [DecidableEq η] {env : Env} {s : Sys} {k : KeysData} {l : Slist η}
  {X : Finset η} {fuel : Nat}

/-- What a call leaves: the buttons are set as long as a handler is registered. -/
theorem KeysCall.returns_run {c : KeysCall η} (hwired : s.KeysWired k) (hl : l.Holds X)
    (hset : X.Nonempty → s.ButtonsSet k true) (hallowed : c.Allowed X) (hfuel : X.card ≤ fuel) :
    Returns (c.run env fuel l) s fun l' s' =>
      s'.KeysWired k ∧ l'.Holds (c.held X) ∧ s'.ButtonsSet k (decide (c.held X).Nonempty) := by
  cases c with
  | acquire handler =>
    have hheld : (KeysCall.acquire handler).held X = insert handler X := rfl
    rw [hheld, decide_eq_true (Finset.insert_nonempty handler X)]
    refine returns_bind (P := fun r s' => s'.KeysWired k ∧ r.2.Holds (insert handler X) ∧
      s'.ButtonsSet k true) ?_ fun r s' hs' => returns_pure hs'
    rw [keysAcquire]
    apply returns_get_bind
    simp only [hwired.keys]
    refine returns_bind (P := fun _ s' => s'.KeysWired k ∧ s'.ButtonsSet k true) ?_
      fun _ s' hs' => returns_pure ⟨hs'.1, hl.insertHead hallowed, hs'.2⟩
    refine returns_runIf (fun _ => returns_addButtons hwired) fun hne => ⟨hwired, hset ?_⟩
    exact Finset.nonempty_iff_ne_empty.mpr fun hempty => hne (hl.first_eq_none_iff.mpr hempty)
  | release handler =>
    have hheld : (KeysCall.release handler).held X = X.erase handler := rfl
    obtain ⟨l', hremove, hl'⟩ := hl.removeEach handler hfuel
    rw [hheld, KeysCall.run, keysRelease]
    apply returns_get_bind
    simp only [hwired.keys, hremove]
    refine returns_bind (P := fun _ s' => s'.KeysWired k ∧
      s'.ButtonsSet k (decide (X.erase handler).Nonempty)) ?_
      fun _ s' hs' => returns_pure ⟨hs'.1, hl', hs'.2⟩
    refine returns_runIf (fun hnone => ?_) fun hne => ⟨hwired, ?_⟩
    · rw [hl'.first_eq_none_iff.mp hnone, decide_eq_false Finset.not_nonempty_empty]
      exact returns_removeButtons hwired
    · have hleft : (X.erase handler).Nonempty :=
        Finset.nonempty_iff_ne_empty.mpr fun hempty => hne (hl'.first_eq_none_iff.mpr hempty)
      rw [decide_eq_true hleft]
      exact hset ⟨handler, hallowed⟩

theorem KeysCall.card_held_le (c : KeysCall η) (X : Finset η) : (c.held X).card ≤ X.card + 1 := by
  cases c with
  | acquire handler => exact Finset.card_insert_le handler X
  | release handler => exact Nat.le_succ_of_le (Finset.card_le_card (Finset.erase_subset handler X))

theorem KeysCall.returns_runAll {calls : List (KeysCall η)} (hwired : s.KeysWired k)
    (hl : l.Holds X) (hset : s.ButtonsSet k (decide X.Nonempty)) (hallowed : AllAllowed X calls)
    (hfuel : X.card + calls.length ≤ fuel) :
    Returns (runAll env fuel l calls) s fun l' s' =>
      s'.KeysWired k ∧ l'.Holds (calls.foldl held X) ∧
        s'.ButtonsSet k (decide (calls.foldl held X).Nonempty) := by
  induction calls generalizing s l X with
  | nil => exact returns_pure ⟨hwired, hl, hset⟩
  | cons c calls ih =>
    obtain ⟨hc, hcalls⟩ := hallowed
    rw [List.length_cons] at hfuel
    have hset' : X.Nonempty → s.ButtonsSet k true := fun hX => by rwa [decide_eq_true hX] at hset
    refine returns_bind (returns_run hwired hl hset' hc (by omega)) fun l' s' hs' => ?_
    obtain ⟨hwired', hl', hset'⟩ := hs'
    have hcard := c.card_held_le X
    exact ih hwired' hl' hset' hcalls (by omega)

end Calls

end SeCloak
