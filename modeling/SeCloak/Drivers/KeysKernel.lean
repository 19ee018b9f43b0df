import SeCloak.Drivers.KeysPresses
import SeCloak.Misc.Follows

/-!
# The handlers of the kernel (`imx_gpio_keys.c:51-95`)

The kernel has two button handlers, and its state has their list without the links. Each call and
each press of the driver over its intrusive list is followed by the same one of the kernel
(`keysCall_follows`, `keysPress_follows`).
-/

namespace SeCloak
open Misc Misc.Code

/-! ## Code that does not read the key driver -/

/-- The run is the same, whatever the key driver is. -/
def IgnoresKeys {α : Type} (m : Kernel α) : Prop :=
  ∀ x, Follows (fun s t : Sys => t = { s with keys := x }) (fun _ => False) m m

section Ignores

variable {α β : Type} {m : Kernel α}

theorem IgnoresKeys.runs (hm : IgnoresKeys m) {s s' : Sys} {w : List Event} {a : α}
    (h : Runs m s w a s') (x : Option KeysData) :
    ∃ w', Runs m { s with keys := x } w' a { s' with keys := x } := by
  rcases (hm x).forth rfl h with ⟨w', t', h', rfl⟩ | ⟨_, _, _, hfalse⟩
  · exact ⟨w', h'⟩
  · exact hfalse.elim

theorem ignoresKeys_pure (a : α) : IgnoresKeys (pure a : Kernel α) := fun _ => follows_pure a

theorem ignoresKeys_throw (e : Fault) : IgnoresKeys (Code.throw e : Kernel α) :=
  fun _ => follows_throw e _

theorem ignoresKeys_bind {f : α → Kernel β} (hm : IgnoresKeys m) (hf : ∀ a, IgnoresKeys (f a)) :
    IgnoresKeys (m >>= f) := fun x => follows_bind (hm x) fun a => hf a x

theorem ignoresKeys_get_bind {f : Sys → Kernel β} (hkeys : ∀ s x, f { s with keys := x } = f s)
    (hf : ∀ s, IgnoresKeys (f s)) : IgnoresKeys (Code.get >>= f) := by
  refine fun x => follows_get_bind fun s t hst => ?_
  rw [hst, hkeys s x]
  exact hf s x

theorem ignoresKeys_modify {f : Sys → Sys}
    (hf : ∀ s x, f { s with keys := x } = { f s with keys := x }) :
    IgnoresKeys (Code.modify f : Kernel Unit) := by
  refine fun x => follows_modify fun s t hst => ?_
  rw [hst, hf s x]

theorem ignoresKeys_irqCheckValid (d : IrqDesc) : IgnoresKeys (irqCheckValid d) :=
  ignoresKeys_get_bind (fun _ _ => rfl) fun _ _ => follows_require Iff.rfl _

theorem ignoresKeys_setHandler (d : IrqDesc) (h : Option Handler) : IgnoresKeys (setHandler d h) := by
  refine ignoresKeys_get_bind (fun _ _ => rfl) fun s => ?_
  cases (s.chip d.chip).handlers with
  | none => exact ignoresKeys_throw _
  | some table => exact ignoresKeys_modify fun _ _ => rfl

theorem ignoresKeys_modifyPin (n irq : Nat) (f : Port → Port) : IgnoresKeys (modifyPin n irq f) := by
  refine ignoresKeys_bind (fun _ => follows_require Iff.rfl _) fun _ => ?_
  refine ignoresKeys_bind (ignoresKeys_get_bind (fun _ _ => rfl) fun s => ?_) fun _ =>
    ignoresKeys_pure 0
  cases s.gpio.port n with
  | none => exact ignoresKeys_throw _
  | some p => exact ignoresKeys_modify fun _ _ => rfl

theorem ignoresKeys_modifyGic (f : Gic → Gic) : IgnoresKeys (modifyGic f) :=
  ignoresKeys_modify fun _ _ => rfl

theorem ignoresKeys_irqAdd (env : Env) (d : IrqDesc) (flags : Word) (h : Handler) :
    IgnoresKeys (irqAdd env d flags h) := by
  refine ignoresKeys_bind (ignoresKeys_irqCheckValid d) fun _ => ?_
  refine ignoresKeys_bind (ignoresKeys_setHandler d _) fun _ => ?_
  obtain ⟨chip, irq⟩ := d
  cases chip with
  | gic | gpc =>
    dsimp only
    rw [gicOpAdd_eq]
    exact ignoresKeys_bind (ignoresKeys_modifyGic _) fun _ => ignoresKeys_pure 0
  | gpio n =>
    refine ignoresKeys_get_bind (fun _ _ => rfl) fun s => ?_
    cases s.gpio.hwtype with
    | none => exact ignoresKeys_throw _
    | some hw => exact ignoresKeys_modifyPin _ _ _

theorem ignoresKeys_irqEnable (env : Env) (d : IrqDesc) : IgnoresKeys (irqEnable env d) := by
  refine ignoresKeys_bind (ignoresKeys_irqCheckValid d) fun _ => ?_
  obtain ⟨chip, irq⟩ := d
  cases chip with
  | gic | gpc =>
    refine ignoresKeys_bind ?_ fun _ =>
      ignoresKeys_bind (ignoresKeys_modifyGic _) fun _ => ignoresKeys_pure 0
    refine ignoresKeys_get_bind (fun _ _ => rfl) fun s => ?_
    unfold kassert
    split
    · exact ignoresKeys_throw _
    · exact ignoresKeys_pure _
  | gpio n => exact ignoresKeys_modifyPin _ _ _

theorem ignoresKeys_irqDisable (d : IrqDesc) : IgnoresKeys (irqDisable d) := by
  refine ignoresKeys_bind (ignoresKeys_irqCheckValid d) fun _ => ?_
  obtain ⟨chip, irq⟩ := d
  cases chip with
  | gic | gpc => exact ignoresKeys_bind (ignoresKeys_modifyGic _) fun _ => ignoresKeys_pure 0
  | gpio n => exact ignoresKeys_modifyPin _ _ _

theorem ignoresKeys_irqRemove (d : IrqDesc) : IgnoresKeys (irqRemove d) := by
  refine ignoresKeys_bind (ignoresKeys_irqCheckValid d) fun _ => ?_
  have htail : ∀ error : Int, IgnoresKeys (do
      Code.runIf (error = 0) (setHandler d none)
      pure error : Kernel Int) := fun error =>
    ignoresKeys_bind (fun x => follows_runIf Iff.rfl (ignoresKeys_setHandler d none x)) fun _ =>
      ignoresKeys_pure error
  obtain ⟨chip, irq⟩ := d
  cases chip with
  | gic | gpc => exact ignoresKeys_bind (ignoresKeys_throw _) htail
  | gpio n => exact ignoresKeys_bind (ignoresKeys_modifyPin _ _ _) htail

theorem ignoresKeys_forEachButton (k : KeysData) {f : Nat → IrqDesc → Kernel Unit}
    (hf : ∀ b d, IgnoresKeys (f b d)) : IgnoresKeys (forEachButton k f) := by
  refine fun x => follows_forEach fun b _ => ?_
  cases k.desc? b with
  | none => exact follows_throw _ _
  | some d => exact hf b d x

theorem ignoresKeys_addButtons (env : Env) (k : KeysData) : IgnoresKeys (addButtons env k) :=
  ignoresKeys_forEachButton k fun _ _ => ignoresKeys_bind (ignoresKeys_irqAdd _ _ _ _) fun _ =>
    ignoresKeys_bind (ignoresKeys_irqEnable _ _) fun _ => ignoresKeys_pure ()

theorem ignoresKeys_removeButtons (k : KeysData) : IgnoresKeys (removeButtons k) :=
  ignoresKeys_forEachButton k fun _ _ => ignoresKeys_bind (ignoresKeys_irqDisable _) fun _ =>
    ignoresKeys_bind (ignoresKeys_irqRemove _) fun _ => ignoresKeys_pure ()

theorem ignoresKeys_onPress (bh : ButtonHandler) (code : Word) : IgnoresKeys (bh.onPress code) := by
  cases bh with
  | cloak =>
    exact ignoresKeys_bind (ignoresKeys_modify fun _ _ => rfl) fun _ => ignoresKeys_pure true
  | secpwr =>
    exact ignoresKeys_bind (ignoresKeys_modify fun _ _ => rfl) fun _ => ignoresKeys_pure false

end Ignores

/-! ## Calls and presses -/

/-- The call in the kernel. -/
def KeysCall.kernel (env : Env) : KeysCall ButtonHandler → Kernel Unit
  | .acquire handler => do
    let _ ← gpioKeysAcquire env handler
    pure ()
  | .release handler => gpioKeysRelease handler

/-- The kernel in the state `t` has the handlers of the list `l` of the driver in the state `s`. -/
def SameKeys (l : Slist ButtonHandler) (hs : List ButtonHandler) (s t : Sys) : Prop :=
  l.Represents hs ∧ hs.Nodup ∧
    ∃ k, s.keys = some k ∧ t = { s with keys := some { k with handlers := hs } }

/-- The handlers of the list after the call. -/
def KeysCall.handlers (hs : List ButtonHandler) : KeysCall ButtonHandler → List ButtonHandler
  | .acquire handler => handler :: hs
  | .release handler => hs.erase handler

section Simulation

variable {env : Env} {fuel : Nat} {l l' : Slist ButtonHandler} {hs : List ButtonHandler}
  {s s' t : Sys} {w : List Event}

/-- A run of one of the loops over the buttons, from the state of the kernel. -/
theorem runs_loop_kernel {p q : Prop} [Decidable p] [Decidable q] (hpq : p ↔ q) {m : Kernel Unit}
    (hm : IgnoresKeys m) (hirq : Within m IrqOnly) {u : Unit} (h : Runs (runIf p m) s w u s')
    (x : Option KeysData) :
    s'.keys = s.keys ∧ ∃ w', Runs (runIf q m) { s with keys := x } w' () { s' with keys := x } := by
  refine ⟨?_, ?_⟩
  · have hrest := (within_runIf irqOnly_closed hirq h).rest
    rw [hrest]
  · have hfollow := follows_runIf hpq (hm x)
    rcases hfollow.forth rfl h with ⟨w', t', h', rfl⟩ | ⟨_, _, _, hfalse⟩
    · exact ⟨w', h'⟩
    · exact hfalse.elim

/-- Each call of the driver over its list is followed by the call in the kernel. -/
theorem keysCall_follows {c : KeysCall ButtonHandler} (hsame : SameKeys l hs s t)
    (hallowed : c.Allowed hs.toFinset) (hfuel : hs.length ≤ fuel)
    (h : Runs (c.run env fuel l) s w l' s') :
    ∃ w' t', Runs (c.kernel env) t w' () t' ∧ SameKeys l' (c.handlers hs) s' t' := by
  obtain ⟨hrep, hnodup, k, hk, rfl⟩ := hsame
  cases c with
  | acquire handler =>
    have hnew : handler ∉ hs := fun hin => hallowed (List.mem_toFinset.mpr hin)
    obtain ⟨_, r, s₁, _, h₁, h₂, -⟩ := runs_bind.mp h
    obtain ⟨-, rfl, rfl⟩ := runs_pure.mp h₂
    rw [keysAcquire, runs_get_bind] at h₁
    simp only [hk] at h₁
    obtain ⟨_, _, s₂, _, hloop, h₃, -⟩ := runs_bind.mp h₁
    obtain ⟨-, rfl, rfl⟩ := runs_pure.mp h₃
    obtain ⟨hkeys, w', hloop'⟩ := runs_loop_kernel hrep.eq_nil_iff (ignoresKeys_addButtons env k)
      (addButtons_irqOnly env k) hloop (some { k with handlers := hs })
    refine ⟨w', { s' with keys := some { k with handlers := handler :: hs } }, ?_,
      hrep.insertHead hnew, List.nodup_cons.mpr ⟨hnew, hnodup⟩, k, hkeys.trans hk, rfl⟩
    refine runs_bind.mpr ⟨w', true, _, [], ?_, runs_pure.mpr ⟨rfl, rfl, rfl⟩, by simp⟩
    rw [gpioKeysAcquire, runs_get_bind]
    refine runs_bind.mpr ⟨w', (), _, [], hloop', ?_, by simp⟩
    rw [setHandlers, runs_modify_bind, runs_pure]
    exact ⟨rfl, rfl, rfl⟩
  | release handler =>
    obtain ⟨l₁, hremove, hrep₁⟩ := hrep.removeEach hnodup handler hfuel
    have herase : hs.erase handler = hs.filter (fun x => decide (x ≠ handler)) := by
      rw [hnodup.erase_eq_filter]
      exact List.filter_congr fun x _ => (decide_not (p := x = handler)).symm
    rw [herase] at hrep₁
    rw [KeysCall.run, keysRelease, runs_get_bind] at h
    simp only [hk, hremove] at h
    obtain ⟨_, _, s₁, _, hloop, h₁, -⟩ := runs_bind.mp h
    obtain ⟨-, rfl, rfl⟩ := runs_pure.mp h₁
    obtain ⟨hkeys, w', hloop'⟩ := runs_loop_kernel hrep₁.eq_nil_iff (ignoresKeys_removeButtons k)
      (removeButtons_irqOnly k) hloop
      (some { k with handlers := hs.filter (fun x => decide (x ≠ handler)) })
    rw [KeysCall.handlers, herase]
    refine ⟨w', _, ?_, hrep₁, hnodup.filter _, k, hkeys.trans hk, rfl⟩
    rw [KeysCall.kernel, gpioKeysRelease, runs_get_bind]
    exact runs_modify_bind.mpr hloop'

theorem pressFrom_eq {code : Word} {next : ButtonHandler → Option ButtonHandler}
    {p : Option ButtonHandler} {consume : Bool} (h : Slist.Chain next p hs)
    (hfuel : hs.length ≤ fuel) :
    pressFrom ButtonHandler.onPress code next fuel p consume = pressAll code hs consume := by
  induction hs generalizing p fuel consume with
  | nil =>
    subst h
    cases fuel <;> rfl
  | cons bh hs ih =>
    obtain ⟨rfl, h⟩ := h
    obtain ⟨fuel, rfl⟩ : ∃ m, fuel = m + 1 := ⟨fuel - 1, by grind⟩
    rw [pressFrom, pressAll]
    exact congrArg (bh.onPress code >>= ·) (funext fun c => ih h (Nat.le_of_succ_le_succ hfuel))

theorem ignoresKeys_pressAll (code : Word) (hs : List ButtonHandler) (consume : Bool) :
    IgnoresKeys (pressAll code hs consume) := by
  induction hs generalizing consume with
  | nil => exact ignoresKeys_pure consume
  | cons bh hs ih => exact ignoresKeys_bind (ignoresKeys_onPress bh code) fun c => ih (consume || c)

/-- Each press of a button of the driver over its list is followed by the press in the kernel. -/
theorem keysPress_follows {b : Nat} {ret : IrqReturn} (hsame : SameKeys l hs s t)
    (hfuel : hs.length ≤ fuel)
    (h : Runs (keysHandler ButtonHandler.onPress fuel l b) s w ret s') :
    ∃ w' t', Runs (gpioKeysIrq b) t w' ret t' ∧ SameKeys l hs s' t' := by
  obtain ⟨hrep, hnodup, ⟨nbuttons, buttons, old⟩, hk, rfl⟩ := hsame
  rw [keysHandler, runs_get_bind] at h
  simp only [hk, Option.bind_some] at h
  cases buttons with
  | none => simp at h
  | some buttons =>
    cases hbutton : buttons[b]? with
    | none => simp [hbutton] at h
    | some button =>
      simp only [hbutton, pressFrom_eq hrep hfuel] at h
      obtain ⟨w₁, consume, s₁, _, hpress, hret, -⟩ := runs_bind.mp h
      obtain ⟨-, rfl, rfl⟩ := runs_pure.mp hret
      have hkeys : s'.keys = s.keys := by rw [(pressAll_pressOnly button.code hs false hpress).rest]
      obtain ⟨w', hpress'⟩ := (ignoresKeys_pressAll button.code hs false).runs hpress
        (some ⟨nbuttons, some buttons, hs⟩)
      refine ⟨w', _, ?_, hrep, hnodup, _, hkeys.trans hk, rfl⟩
      rw [gpioKeysIrq, runs_get_bind]
      simp only [Option.bind_some, hbutton]
      refine runs_bind.mpr ⟨w', consume, _, [], ?_, runs_pure.mpr ⟨rfl, rfl, rfl⟩, by simp⟩
      exact hpress'

end Simulation

end SeCloak
