import SeCloak.Drivers.KeysShared

/-!
# Presses of shared keys (`imx_gpio_keys.c:51-61`)

While the interrupt of a button has its handler, a press calls every handler of the list once, in
the order of the list, and is consumed as soon as one of them consumes it. Together with what the
calls leave this is `keys_shared`. The list of the two handlers of the kernel is a case of it.
-/

namespace SeCloak
open Misc Misc.Code

/-! ## One press -/

section Press

variable {η : Type} {onPress : η → Word → Kernel Bool} {code : Word}

/-- The handlers `hs` are called with `code`, one after the other, and answer `cs`. -/
inductive Called (onPress : η → Word → Kernel Bool) (code : Word) :
    List η → Sys → List Event → List Bool → Sys → Prop
  | nil (s : Sys) : Called onPress code [] s [] [] s
  | cons {h : η} {hs : List η} {s s₁ s' : Sys} {w w' : List Event} {c : Bool} {cs : List Bool} :
    Runs (onPress h code) s w c s₁ → Called onPress code hs s₁ w' cs s' →
    Called onPress code (h :: hs) s (w ++ w') (c :: cs) s'

theorem pressFrom_runs {next : η → Option η} {p : Option η} {hs : List η} {fuel : Nat}
    (h : Slist.Chain next p hs) (hfuel : hs.length ≤ fuel) {consume : Bool} {s s' : Sys}
    {w : List Event} {r : Bool} : Runs (pressFrom onPress code next fuel p consume) s w r s' ↔
      ∃ cs, Called onPress code hs s w cs s' ∧ r = (consume || decide (true ∈ cs)) := by
  induction hs generalizing p fuel consume s w with
  | nil =>
    subst h
    have hnil : pressFrom onPress code next fuel none consume = pure consume := by cases fuel <;> rfl
    rw [hnil, runs_pure]
    constructor
    · rintro ⟨rfl, rfl, rfl⟩
      exact ⟨[], .nil s', by simp⟩
    · rintro ⟨cs, hcalled, rfl⟩
      cases hcalled
      exact ⟨rfl, by simp, rfl⟩
  | cons bh hs ih =>
    obtain ⟨rfl, h⟩ := h
    obtain ⟨fuel, rfl⟩ : ∃ m, fuel = m + 1 := ⟨fuel - 1, by grind⟩
    have hlen : hs.length ≤ fuel := Nat.le_of_succ_le_succ hfuel
    rw [pressFrom, runs_bind]
    constructor
    · rintro ⟨w₁, c, s₁, w₂, hcall, hrest, rfl⟩
      obtain ⟨cs, hcalled, rfl⟩ := (ih h hlen).mp hrest
      refine ⟨c :: cs, .cons hcall hcalled, ?_⟩
      cases c <;> simp
    · rintro ⟨cs, hcalled, rfl⟩
      cases hcalled with
      | @cons _ _ _ s₁ _ w₁ w₂ c cs hcall hcalled =>
        refine ⟨w₁, c, s₁, w₂, hcall, (ih h hlen).mpr ⟨cs, hcalled, ?_⟩, rfl⟩
        cases c <;> simp

/-- The `b`-th button. -/
def KeysData.button? (k : KeysData) (b : Nat) : Option KeysButton := k.buttons.bind (·[b]?)

/-- What `gpio_keys_handler` returns for the answers of the handlers. -/
def pressReturn (answers : List Bool) : IrqReturn :=
  if true ∈ answers then .handled else .handledPass

variable {fuel : Nat} {l : Slist η} {hs : List η} {s s' : Sys} {k : KeysData} {w : List Event}
  {ret : IrqReturn}

theorem keysHandler_runs (hk : s.keys = some k) {b : Nat} {button : KeysButton}
    (hb : k.button? b = some button) (hl : l.Represents hs) (hfuel : hs.length ≤ fuel) :
    Runs (keysHandler onPress fuel l b) s w ret s' ↔
      ∃ cs, Called onPress button.code hs s w cs s' ∧ ret = pressReturn cs := by
  obtain ⟨buttons, hbuttons, hget⟩ := Option.bind_eq_some_iff.mp hb
  have hkeys : s.keys.bind (·.buttons) = some buttons := by rw [hk, Option.bind_some, hbuttons]
  rw [keysHandler, runs_get_bind]
  simp only [hkeys, hget]
  constructor
  · intro h
    obtain ⟨w₁, consume, s₁, w₂, hpress, hret, rfl⟩ := runs_bind.mp h
    obtain ⟨rfl, rfl, rfl⟩ := runs_pure.mp hret
    obtain ⟨cs, hcalled, rfl⟩ := (pressFrom_runs hl hfuel).mp hpress
    refine ⟨cs, by rwa [List.append_nil], ?_⟩
    simp only [pressReturn, Bool.false_or, decide_eq_true_eq]
  · rintro ⟨cs, hcalled, rfl⟩
    refine runs_bind.mpr ⟨w, decide (true ∈ cs), s', [], ?_, runs_pure.mpr ⟨rfl, ?_, rfl⟩, by simp⟩
    · exact (pressFrom_runs hl hfuel).mpr ⟨cs, hcalled, by simp⟩
    · simp only [pressReturn, decide_eq_true_eq]

/-- `irq_handle` for a pin that has a handler, which does not answer `ITRR_NONE`. -/
theorem irqHandle_runs {handle : Handler → Kernel IrqReturn} {n i : Nat}
    {table : Nat → Option Handler} {p : Port} (hpin : s.HasPin n i table p) {x : Handler}
    (hx : table i = some x) (hnone : ∀ w s', ¬ Runs (handle x) s w .none s') :
    Runs (irqHandle handle ⟨.gpio n, i⟩) s w ret s' ↔ Runs (handle x) s w ret s' := by
  rw [irqHandle, irqCheckValid_bind, runs_get_bind]
  simp only [hpin.table, hx]
  constructor
  · rintro ⟨-, h⟩
    obtain ⟨w₁, ret₁, s₁, w₂, hrun, h₁, rfl⟩ := runs_bind.mp h
    obtain ⟨w₃, _, s₂, w₄, hdisable, h₂, rfl⟩ := runs_bind.mp h₁
    obtain ⟨rfl, rfl, rfl⟩ := runs_pure.mp h₂
    rcases runs_runIf.mp hdisable with ⟨rfl, -⟩ | ⟨-, rfl, rfl⟩
    · exact absurd hrun (hnone w₁ s₁)
    · simpa using hrun
  · intro h
    have hne : ret ≠ .none := by
      rintro rfl
      exact hnone w s' h
    refine ⟨hpin.valid, runs_bind.mpr ⟨w, ret, s', [], h, ?_, by simp⟩⟩
    refine runs_bind.mpr ⟨[], (), s', [], ?_, runs_pure.mpr ⟨rfl, rfl, rfl⟩, rfl⟩
    exact runs_runIf.mpr (Or.inr ⟨hne, rfl, rfl⟩)

/-- The interrupt of each button calls the handlers `hs`. -/
def CallsAll (onPress : η → Word → Kernel Bool) (fuel : Nat) (k : KeysData) (l : Slist η)
    (hs : List η) (s : Sys) : Prop :=
  ∀ b < k.nbuttons, ∀ n i button, k.desc? b = some ⟨.gpio n, i⟩ → k.button? b = some button →
    ∀ w ret s', Runs (irqHandle (listHandler onPress fuel l) ⟨.gpio n, i⟩) s w ret s' ↔
      ∃ cs, Called onPress button.code hs s w cs s' ∧ ret = pressReturn cs

theorem callsAll_of_set (hwired : s.KeysWired k) (hset : s.ButtonsSet k true)
    (hl : l.Represents hs) (hfuel : hs.length ≤ fuel) : CallsAll onPress fuel k l hs s := by
  intro b hb n i button hdesc hbutton w ret s'
  obtain ⟨m, j, table, p, hdesc', hpin⟩ := hwired.pin b hb
  obtain ⟨hm, rfl⟩ := IrqDesc.mk.inj (Option.some.inj (hdesc'.symm.trans hdesc))
  obtain rfl := ChipId.gpio.inj hm
  have htable : table j = some (.button b) := by
    have hfirst := congrArg Prod.fst (hset b hb m j hdesc)
    simpa [Sys.pinState, hpin.table] using hfirst
  have hnone : ∀ w s', ¬ Runs (listHandler onPress fuel l (.button b)) s w .none s' := by
    intro w s' hrun
    obtain ⟨cs, -, hret⟩ := (keysHandler_runs hwired.keys hbutton hl hfuel).mp hrun
    rw [pressReturn] at hret
    split at hret <;> cases hret
  exact (irqHandle_runs hpin htable hnone).trans (keysHandler_runs hwired.keys hbutton hl hfuel)

end Press

/-! ## All calls -/

section Shared

variable {η : Type} [DecidableEq η] {env : Env} {s : Sys} {k : KeysData} {l : Slist η}
  {calls : List (KeysCall η)} {fuel : Nat}

theorem KeysCall.card_foldl_held_le (calls : List (KeysCall η)) (X : Finset η) :
    (calls.foldl held X).card ≤ X.card + calls.length := by
  induction calls generalizing X with
  | nil => exact Nat.le_refl _
  | cons c calls ih =>
    have hcalls := ih (c.held X)
    have hc := c.card_held_le X
    rw [List.foldl_cons, List.length_cons]
    omega

/-- The first call sets the buttons, whatever they were before. -/
theorem KeysCall.returns_runAll_empty (hwired : s.KeysWired k) (hl : l.Holds ∅)
    (hallowed : AllAllowed ∅ calls) (hfuel : calls.length ≤ fuel) :
    Returns (runAll env fuel l calls) s fun l' s' =>
      s'.KeysWired k ∧ l'.Holds (calls.foldl held ∅) ∧
        (calls ≠ [] ∨ s.ButtonsSet k false →
          s'.ButtonsSet k (decide (calls.foldl held ∅).Nonempty)) := by
  cases calls with
  | nil =>
    refine returns_pure ⟨hwired, hl, fun hset => ?_⟩
    exact hset.resolve_left fun hne => hne rfl
  | cons c calls =>
    obtain ⟨hc, hcalls⟩ := hallowed
    rw [List.length_cons] at hfuel
    have hcard := c.card_held_le (∅ : Finset η)
    rw [Finset.card_empty] at hcard
    have hnot : (∅ : Finset η).Nonempty → s.ButtonsSet k true := fun hX =>
      absurd hX Finset.not_nonempty_empty
    refine returns_bind (returns_run hwired hl hnot hc (Nat.zero_le fuel)) fun l₁ s₁ hs₁ => ?_
    obtain ⟨hwired₁, hl₁, hset₁⟩ := hs₁
    refine (returns_runAll hwired₁ hl₁ hset₁ hcalls (by omega)).imp fun l' s' hs' => ?_
    exact ⟨hs'.1, hs'.2.1, fun _ => hs'.2.2⟩

/-- After any allowed calls, from the empty list on, the list is the handlers that are registered,
each of them once. The interrupt of each button has its handler and is unmasked exactly if the
list is not empty, and then a press calls all of the list. -/
theorem keys_shared {onPress : η → Word → Kernel Bool} (hwired : s.KeysWired k)
    (hl : l.first = none) (hallowed : KeysCall.AllAllowed ∅ calls) (hfuel : calls.length ≤ fuel) :
    Returns (KeysCall.runAll env fuel l calls) s fun l' s' => ∃ hs : List η,
      l'.Represents hs ∧ hs.Nodup ∧ (∀ h, h ∈ hs ↔ h ∈ calls.foldl KeysCall.held ∅) ∧
        (calls ≠ [] ∨ s.ButtonsSet k false → s'.ButtonsSet k (decide (hs ≠ []))) ∧
          (hs ≠ [] → CallsAll onPress fuel k l' hs s') := by
  have hcard := KeysCall.card_foldl_held_le calls (∅ : Finset η)
  rw [Finset.card_empty, Nat.zero_add] at hcard
  refine (KeysCall.returns_runAll_empty hwired (Slist.holds_empty hl) hallowed hfuel).imp ?_
  rintro l' s' ⟨hwired', ⟨hs, hrep, hnodup, hmem⟩, hset⟩
  have hlen := Slist.card_eq_length hnodup hmem
  have hne : (calls.foldl KeysCall.held ∅).Nonempty ↔ hs ≠ [] := by
    rw [← Finset.card_pos, hlen, List.length_pos_iff]
  rw [decide_eq_decide.mpr hne] at hset
  refine ⟨hs, hrep, hnodup, hmem, hset, fun hsome => ?_⟩
  have hcalls : calls ≠ [] := by
    rintro rfl
    exact Finset.not_nonempty_empty (hne.mpr hsome)
  have hon := hset (Or.inl hcalls)
  rw [decide_eq_true hsome] at hon
  exact callsAll_of_set hwired' hon hrep (by omega)

end Shared

namespace Board

/-- Nobody has the keys. -/
def keysIdle : Sys := (gpioKeysRelease .secpwr).after (booted imx6 0)

/-- The handler of the cloak is registered, and the other one comes and goes. -/
def sharing : List (KeysCall ButtonHandler) :=
  [.acquire .secpwr, .acquire .cloak, .release .secpwr]

def keysData : KeysData := keysIdle.keys.getD ⟨0, none, []⟩

theorem keysIdle_wired : keysIdle.KeysWired keysData where
  keys := by decide +kernel
  hwtype := by decide +kernel
  pin b hb := by
    have hdesc : ∀ b < keysData.nbuttons, keysData.desc? b = some ⟨.gpio 0, 5 - b⟩ := by
      decide +kernel
    have hvalid : (keysIdle.chip (.gpio 0)).numIrqs = 32 := by decide +kernel
    have hhandlers : (keysIdle.chip (.gpio 0)).handlers.isSome = true := by decide +kernel
    have hport : (keysIdle.gpio.port 0).isSome = true := by decide +kernel
    obtain ⟨table, htable⟩ := Option.isSome_iff_exists.mp hhandlers
    obtain ⟨p, hp⟩ := Option.isSome_iff_exists.mp hport
    exact ⟨0, 5 - b, table, p, hdesc b hb, by omega, by omega, htable, hp⟩
  distinct := by decide +kernel

end Board

theorem keys_shared_sharing :
    Returns (KeysCall.runAll imx6 3 ⟨none, fun _ => none⟩ Board.sharing) Board.keysIdle
      fun l' s' => ∃ hs : List ButtonHandler, l'.Represents hs ∧ hs.Nodup ∧
        (∀ h, h ∈ hs ↔ h ∈ Board.sharing.foldl KeysCall.held ∅) ∧
          (Board.sharing ≠ [] ∨ Board.keysIdle.ButtonsSet Board.keysData false →
            s'.ButtonsSet Board.keysData (decide (hs ≠ []))) ∧
            (hs ≠ [] → CallsAll ButtonHandler.onPress 3 Board.keysData l' hs s') :=
  keys_shared Board.keysIdle_wired rfl ⟨by decide, by decide, by decide, trivial⟩ (by decide)

end SeCloak
