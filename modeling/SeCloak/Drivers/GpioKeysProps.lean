import SeCloak.Drivers.GpioKeys

/-!
# What the key driver changes

Nothing in the key driver touches devices, CSLs, regions or the framebuffer (`InputOnly`). Once
a handler is registered, a second one comes and goes without any access to the interrupt
controllers; a key driver that failed to probe cannot be acquired at all (`KeysData.Ready`).
-/

namespace SeCloak
open Misc

/-- What the operations of `interrupt.c` may change, without an event. -/
structure IrqOnly (s : Sys) (w : List Event) (s' : Sys) : Prop where
  rest : s' = { s with
    gic := s'.gic, chip := s'.chip, gpio := { s.gpio with port := s'.gpio.port } }
  fixed : ∀ n, (s'.gpio.port n).map Port.fixed = (s.gpio.port n).map Port.fixed
  silent : w = []

theorem irqOnly_closed : Code.Closed IrqOnly where
  nil s := ⟨rfl, fun _ => rfl, rfl⟩
  append h h' := by
    refine ⟨?_, fun n => (h'.fixed n).trans (h.fixed n), ?_⟩
    · rw [h'.rest, h.rest]
    · rw [h.silent, h'.silent, List.append_nil]

theorem LinesOnly.irqOnly {s s' : Sys} (h : LinesOnly s s') : IrqOnly s [] s' := by
  refine ⟨?_, h.fixed, rfl⟩
  rw [h.rest]

/-- What the key driver may change, without an event. -/
structure InputOnly (s : Sys) (w : List Event) (s' : Sys) : Prop where
  rest : s' = { s with
    gic := s'.gic, chip := s'.chip, gpio := { s.gpio with port := s'.gpio.port }, keys := s'.keys,
    secpwr := s'.secpwr, cloak := { s.cloak with confirmStatus := s'.cloak.confirmStatus } }
  fixed : ∀ n, (s'.gpio.port n).map Port.fixed = (s.gpio.port n).map Port.fixed
  silent : w = []

theorem inputOnly_closed : Code.Closed InputOnly where
  nil s := ⟨rfl, fun _ => rfl, rfl⟩
  append h h' := by
    refine ⟨?_, fun n => (h'.fixed n).trans (h.fixed n), ?_⟩
    · rw [h'.rest, h.rest]
    · rw [h.silent, h'.silent, List.append_nil]

theorem IrqOnly.inputOnly {s s' : Sys} {w : List Event} (h : IrqOnly s w s') : InputOnly s w s' := by
  refine ⟨?_, h.fixed, h.silent⟩
  rw [h.rest]

/-! ## Rules for any relation

Code that calls the operations of `interrupt.c` and of the key driver stays inside a relation as
soon as its parts do. -/

section Rules

variable {R : Sys → List Event → Sys → Prop} {env : Env}

theorem within_irqCheckValid (hR : Code.Closed R) (d : IrqDesc) : Code.Within (irqCheckValid d) R :=
  Code.within_bind hR (Code.within_get hR) fun _ => Code.within_require hR _

theorem within_irqAdd (hR : Code.Closed R) {d : IrqDesc} {flags : Word} {h : Handler}
    (hset : Code.Within (setHandler d (some h)) R) (hgic : ∀ f, Code.Within (modifyGic f) R)
    (hpin : ∀ n f, (∀ p, (f p).fixed = p.fixed) → Code.Within (modifyPin n d.irq f) R) :
    Code.Within (irqAdd env d flags h) R := by
  have hassert : ∀ it, Code.Within (gicAssertGroup0 env it) R := by
    intro it s w u s' h
    rw [gicAssertGroup0, Code.runs_get_bind, runs_kassert] at h
    obtain ⟨rfl, rfl, -⟩ := h
    exact hR.nil _
  have hadd : Code.Within (gicOpAdd env d.irq) R := by
    refine Code.within_bind hR (hgic _) fun _ => ?_
    refine Code.within_bind hR (hassert _) fun _ => ?_
    refine Code.within_bind hR (hgic _) fun _ => ?_
    refine Code.within_bind hR (hassert _) fun _ => ?_
    exact Code.within_bind hR (hgic _) fun _ => Code.within_pure hR _
  refine Code.within_bind hR (within_irqCheckValid hR d) fun _ => ?_
  refine Code.within_bind hR hset fun _ => ?_
  obtain ⟨chip, irq⟩ := d
  cases chip with
  | gic | gpc => exact hadd
  | gpio n =>
    refine Code.within_bind hR (Code.within_get hR) fun s => ?_
    cases s.gpio.hwtype with
    | none => exact Code.within_throw _
    | some hw => exact hpin n _ (by simp)

theorem within_forEachButton (hR : Code.Closed R) (k : KeysData) {f : Nat → IrqDesc → Kernel Unit}
    (hf : ∀ b d, Code.Within (f b d) R) : Code.Within (forEachButton k f) R := by
  refine Code.within_forEach hR fun b _ => ?_
  cases k.desc? b with
  | none => exact Code.within_throw _
  | some d => exact hf b d

/-- The interrupts of the keys, when the first handler is registered. -/
theorem within_addButtons (hR : Code.Closed R) (k : KeysData)
    (hadd : ∀ d b, Code.Within (irqAdd env d 0x3 (.button b)) R)
    (henable : ∀ d, Code.Within (irqEnable env d) R) :
    Code.Within (forEachButton k fun b desc => do
      let _ ← irqAdd env desc 0x3 (.button b)
      let _ ← irqEnable env desc
      pure ()) R := by
  refine within_forEachButton hR k fun b d => Code.within_bind hR (hadd d b) fun _ => ?_
  exact Code.within_bind hR (henable d) fun _ => Code.within_pure hR _

theorem within_gpioKeysAcquire (hR : Code.Closed R) {handler : ButtonHandler}
    (hadd : ∀ d b, Code.Within (irqAdd env d 0x3 (.button b)) R)
    (henable : ∀ d, Code.Within (irqEnable env d) R)
    (hset : ∀ hs, Code.Within (setHandlers hs) R) :
    Code.Within (gpioKeysAcquire env handler) R := by
  refine Code.within_bind hR (Code.within_get hR) fun s => ?_
  cases s.keys with
  | none => exact Code.within_throw _
  | some k =>
    refine Code.within_bind hR (Code.within_runIf hR (within_addButtons hR k hadd henable)) ?_
    exact fun _ => Code.within_bind hR (hset _) fun _ => Code.within_pure hR _

theorem within_gpioKeysParse (hR : Code.Closed R) (hset : ∀ n b, Code.Within (setButton n b) R)
    (n : Nat) (nodes : List KeyNode) : Code.Within (gpioKeysParse n nodes) R := by
  induction nodes generalizing n with
  | nil => exact Code.within_pure hR _
  | cons node nodes ih =>
    rw [gpioKeysParse]
    cases node.code with
    | none => exact Code.within_pure hR _
    | some code =>
      refine Code.within_bind hR (hset _ _) fun _ => ?_
      cases node.gpios with
      | none => exact Code.within_throw _
      | some spec =>
        cases hchip : spec.chip with
        | none =>
          simp only [hchip]
          exact Code.within_pure hR _
        | some chip =>
          simp only [hchip]
          exact Code.within_bind hR (hset _ _) fun _ => ih (n + 1)

theorem within_gpioKeysProbe (hR : Code.Closed R) {nodes : List KeyNode}
    (hmalloc : Code.Within (malloc env) R)
    (hkeys : ∀ f : Sys → Option KeysData,
      Code.Within (Code.modify fun s => { s with keys := f s } : Kernel Unit) R)
    (hacquire : Code.Within (gpioKeysAcquire env .secpwr) R) :
    Code.Within (gpioKeysProbe env nodes) R := by
  refine Code.within_ite (Code.within_pure hR _) ?_
  refine Code.within_bind hR hmalloc fun ok => ?_
  refine Code.within_bind hR (hkeys _) fun _ => ?_
  refine Code.within_ite (Code.within_pure hR _) ?_
  refine Code.within_bind hR hmalloc fun ok' => ?_
  refine Code.within_ite (Code.within_pure hR _) ?_
  refine Code.within_bind hR (hkeys _) fun _ => ?_
  refine Code.within_bind hR (within_gpioKeysParse hR (fun _ _ => hkeys _) 0 nodes) fun parsed => ?_
  refine Code.within_ite (Code.within_pure hR _) ?_
  exact Code.within_bind hR hacquire fun _ => Code.within_pure hR _

end Rules

/-! ## Interrupts -/

theorem setHandler_irqOnly (d : IrqDesc) (h : Option Handler) :
    Code.Within (setHandler d h) IrqOnly := by
  intro s w u s' hr
  rw [setHandler, Code.runs_get_bind] at hr
  cases hc : (s.chip d.chip).handlers with
  | none => simp [hc] at hr
  | some table =>
    simp only [hc, Code.runs_modify] at hr
    obtain ⟨rfl, rfl⟩ := hr
    exact ⟨rfl, fun _ => rfl, rfl⟩

theorem modifyGic_irqOnly (f : Gic → Gic) : Code.Within (modifyGic f) IrqOnly :=
  Code.within_modify fun _ => ⟨rfl, fun _ => rfl, rfl⟩

theorem modifyPin_irqOnly (n irq : Nat) {f : Port → Port} (hf : ∀ p, (f p).fixed = p.fixed) :
    Code.Within (modifyPin n irq f) IrqOnly := by
  intro s w r s' h
  obtain ⟨-, rfl, p, hp, rfl⟩ := modifyPin_runs h
  exact (linesOnly_port s hp (hf p)).irqOnly

theorem irqAdd_irqOnly (env : Env) (d : IrqDesc) (flags : Word) (h : Handler) :
    Code.Within (irqAdd env d flags h) IrqOnly :=
  within_irqAdd irqOnly_closed (setHandler_irqOnly d _) modifyGic_irqOnly
    fun n _ hf => modifyPin_irqOnly n d.irq hf

theorem irqEnable_irqOnly (env : Env) (d : IrqDesc) : Code.Within (irqEnable env d) IrqOnly := by
  intro s w r s' h
  obtain ⟨rfl, -, rfl⟩ := irqEnable_runs h
  exact (linesOnly_onLine _ _ _ (by simp)).irqOnly

theorem irqDisable_irqOnly (d : IrqDesc) : Code.Within (irqDisable d) IrqOnly := by
  intro s w r s' h
  obtain ⟨rfl, -, rfl⟩ := irqDisable_runs h
  exact (linesOnly_onLine _ _ _ (by simp)).irqOnly

theorem irqRemove_irqOnly (d : IrqDesc) : Code.Within (irqRemove d) IrqOnly := by
  refine Code.within_bind irqOnly_closed (within_irqCheckValid irqOnly_closed d) fun _ => ?_
  have htail : ∀ error : Int, Code.Within (do
      Code.runIf (error = 0) (setHandler d none)
      pure error : Kernel Int) IrqOnly := by
    intro error
    refine Code.within_bind irqOnly_closed ?_ fun _ => Code.within_pure irqOnly_closed _
    exact Code.within_runIf irqOnly_closed (setHandler_irqOnly d none)
  obtain ⟨chip, irq⟩ := d
  cases chip with
  | gic | gpc => exact Code.within_bind irqOnly_closed (Code.within_throw _) htail
  | gpio n =>
    exact Code.within_bind irqOnly_closed (modifyPin_irqOnly n irq (by simp)) htail

/-! ## Handlers -/

theorem setHandlers_inputOnly (hs : List ButtonHandler) : Code.Within (setHandlers hs) InputOnly :=
  Code.within_modify fun _ => ⟨rfl, fun _ => rfl, rfl⟩

theorem addButtons_irqOnly (env : Env) (k : KeysData) :
    Code.Within (forEachButton k fun b desc => do
      let _ ← irqAdd env desc 0x3 (.button b)
      let _ ← irqEnable env desc
      pure ()) IrqOnly :=
  within_addButtons irqOnly_closed k (fun d _ => irqAdd_irqOnly env d _ _) (irqEnable_irqOnly env)

/-- The interrupts of the keys, when the last handler is gone. -/
theorem removeButtons_irqOnly (k : KeysData) :
    Code.Within (forEachButton k fun _ desc => do
      let _ ← irqDisable desc
      let _ ← irqRemove desc
      pure ()) IrqOnly := by
  refine within_forEachButton irqOnly_closed k fun b d => ?_
  refine Code.within_bind irqOnly_closed (irqDisable_irqOnly _) fun _ => ?_
  exact Code.within_bind irqOnly_closed (irqRemove_irqOnly _)
    fun _ => Code.within_pure irqOnly_closed _

theorem gpioKeysAcquire_inputOnly (env : Env) (h : ButtonHandler) :
    Code.Within (gpioKeysAcquire env h) InputOnly :=
  within_gpioKeysAcquire inputOnly_closed
    (fun d _ _ _ _ _ hrun => (irqAdd_irqOnly env d _ _ hrun).inputOnly)
    (fun d _ _ _ _ hrun => (irqEnable_irqOnly env d hrun).inputOnly) setHandlers_inputOnly

theorem gpioKeysRelease_inputOnly (h : ButtonHandler) :
    Code.Within (gpioKeysRelease h) InputOnly := by
  refine Code.within_bind inputOnly_closed (Code.within_get inputOnly_closed) fun s => ?_
  cases s.keys with
  | none => exact Code.within_throw _
  | some k =>
    refine Code.within_bind inputOnly_closed (setHandlers_inputOnly _) fun _ => ?_
    refine Code.within_runIf inputOnly_closed ?_
    exact fun _ _ _ _ h => (removeButtons_irqOnly k h).inputOnly

/-- A press changes the state of the two handlers and nothing else. -/
structure PressOnly (s : Sys) (w : List Event) (s' : Sys) : Prop where
  rest : s' = { s with
    secpwr := s'.secpwr, cloak := { s.cloak with confirmStatus := s'.cloak.confirmStatus } }
  silent : w = []

theorem pressOnly_closed : Code.Closed PressOnly where
  nil s := ⟨rfl, rfl⟩
  append h h' := by
    refine ⟨?_, ?_⟩
    · rw [h'.rest, h.rest]
    · rw [h.silent, h'.silent, List.append_nil]

theorem onPress_pressOnly (bh : ButtonHandler) (code : Word) :
    Code.Within (bh.onPress code) PressOnly := by
  cases bh with
  | cloak =>
    refine Code.within_bind pressOnly_closed (Code.within_modify fun s => ⟨rfl, rfl⟩) fun _ => ?_
    exact Code.within_pure pressOnly_closed _
  | secpwr =>
    refine Code.within_bind pressOnly_closed (Code.within_modify fun s => ⟨rfl, rfl⟩) fun _ => ?_
    exact Code.within_pure pressOnly_closed _

theorem pressAll_total (code : Word) (hs : List ButtonHandler) (consume : Bool) :
    Code.Total (pressAll code hs consume) := by
  induction hs generalizing consume with
  | nil => exact fun _ _ _ => Code.stops_pure
  | cons bh hs ih =>
    refine Code.total_bind ?_ fun _ => ih _
    cases bh with
    | cloak | secpwr =>
      exact Code.total_bind (fun _ _ _ => Code.stops_modify) fun _ _ _ _ => Code.stops_pure

theorem pressAll_pressOnly (code : Word) (hs : List ButtonHandler) (consume : Bool) :
    Code.Within (pressAll code hs consume) PressOnly := by
  induction hs generalizing consume with
  | nil => exact Code.within_pure pressOnly_closed _
  | cons bh hs ih =>
    exact Code.within_bind pressOnly_closed (onPress_pressOnly bh code) fun _ => ih _

theorem gpioKeysHandler_pressOnly (code : Word) : Code.Within (gpioKeysHandler code) PressOnly := by
  refine Code.within_bind pressOnly_closed (Code.within_get pressOnly_closed) fun s => ?_
  cases s.keys with
  | none => exact Code.within_throw _
  | some k => exact pressAll_pressOnly _ _ _

/-! ## Readiness -/

/-- Either the secure power handler is registered, or no handler is and some button was never
parsed. -/
def KeysData.Ready (k : KeysData) : Prop :=
  k.handlers = [.secpwr] ∨ (k.handlers = [] ∧ ∃ b < k.nbuttons, k.desc? b = none)

/-- A key driver with a button that was not parsed cannot be acquired. -/
theorem forEachButton_desc {k : KeysData} {f : Nat → IrqDesc → Kernel Unit} {s s' : Sys}
    {w : List Event} {u : Unit} (h : Code.Runs (forEachButton k f) s w u s') :
    ∀ b < k.nbuttons, k.desc? b ≠ none := by
  intro b hb hnone
  obtain ⟨s₁, w₁, s₂, hbutton⟩ := Code.runs_forEach_mem h (List.mem_range.mpr hb)
  simp [hnone] at hbutton

theorem gpioKeysAcquire_ready {env : Env} {handler : ButtonHandler} {s s' : Sys} {w : List Event}
    {r : Bool} (hready : ∀ k, s.keys = some k → k.Ready)
    (h : Code.Runs (gpioKeysAcquire env handler) s w r s') :
    r = true ∧ ∃ k, s.keys = some k ∧ k.handlers = [.secpwr] ∧
      s' = { s with keys := some { k with handlers := [handler, .secpwr] } } := by
  rw [gpioKeysAcquire, Code.runs_get_bind] at h
  cases hk : s.keys with
  | none => simp [hk] at h
  | some k =>
    simp only [hk] at h
    obtain ⟨w₁, _, s₁, v₁, h₁, k₁, rfl⟩ := Code.runs_bind.mp h
    obtain ⟨w₂, _, s₂, v₂, h₂, k₂, rfl⟩ := Code.runs_bind.mp k₁
    obtain ⟨-, rfl, rfl⟩ := Code.runs_pure.mp k₂
    obtain ⟨-, rfl⟩ := Code.runs_modify.mp h₂
    rcases hready k hk with hsec | ⟨hnil, b, hb, hnone⟩
    · rcases Code.runs_runIf.mp h₁ with ⟨hempty, -⟩ | ⟨-, -, rfl⟩
      · rw [hempty] at hsec
        cases hsec
      · exact ⟨rfl, k, rfl, hsec, by simp [hk, hsec]⟩
    · rcases Code.runs_runIf.mp h₁ with ⟨-, h₁⟩ | ⟨hne, -, -⟩
      · exact absurd hnone (forEachButton_desc h₁ b hb)
      · exact absurd hnil hne

theorem gpioKeysRelease_ready {s s' : Sys} {w : List Event} {u : Unit} {k : KeysData}
    (hk : s.keys = some k) (hhs : k.handlers = [.cloak, .secpwr])
    (h : Code.Runs (gpioKeysRelease .cloak) s w u s') :
    w = [] ∧ s' = { s with keys := some { k with handlers := [.secpwr] } } := by
  rw [gpioKeysRelease, Code.runs_get_bind] at h
  simp only [hk] at h
  have hfilter : k.handlers.filter (fun x => decide (x ≠ .cloak)) = [.secpwr] := by
    rw [hhs]
    rfl
  obtain ⟨w₁, _, s₁, w₂, h₁, h₂, rfl⟩ := Code.runs_bind.mp h
  obtain ⟨rfl, rfl⟩ := Code.runs_modify.mp h₁
  rcases Code.runs_runIf.mp h₂ with ⟨hempty, -⟩ | ⟨-, rfl, rfl⟩
  · rw [hfilter] at hempty
    cases hempty
  · refine ⟨rfl, ?_⟩
    rw [hfilter, hk]
    rfl

/-- Where the loop over the subnodes stops early, the button it stopped at has no chip. -/
theorem gpioKeysParse_runs {nodes : List KeyNode} {n : Nat} {s s' : Sys} {w : List Event}
    {parsed : Bool} {k : KeysData} {bs : List KeysButton}
    (h : Code.Runs (gpioKeysParse n nodes) s w parsed s') (hk : s.keys = some k)
    (hhs : k.handlers = []) (hbs : k.buttons = some bs) (hn : n + nodes.length = k.nbuttons)
    (hlen : bs.length = k.nbuttons) (hrest : ∀ j, n ≤ j → j < k.nbuttons → bs[j]? = some {}) :
    ∃ k', s'.keys = some k' ∧ k'.handlers = [] ∧
      (parsed = false → ∃ b < k'.nbuttons, k'.desc? b = none) := by
  induction nodes generalizing n s w k bs with
  | nil =>
    obtain ⟨-, rfl, rfl⟩ := Code.runs_pure.mp h
    exact ⟨k, hk, hhs, by simp⟩
  | cons node nodes ih =>
    have hlt : n < k.nbuttons := by
      simp only [List.length_cons] at hn
      omega
    rw [gpioKeysParse] at h
    cases hcode : node.code with
    | none =>
      simp only [hcode] at h
      obtain ⟨-, rfl, rfl⟩ := Code.runs_pure.mp h
      refine ⟨k, hk, hhs, fun _ => ⟨n, hlt, ?_⟩⟩
      simp [KeysData.desc?, hbs, hrest n (Nat.le_refl n) hlt]
    | some code =>
      simp only [hcode, setButton, Code.runs_modify_bind] at h
      cases hgpios : node.gpios with
      | none => simp [hgpios] at h
      | some spec =>
        cases hchip : spec.chip with
        | none =>
          simp only [hgpios, hchip] at h
          obtain ⟨-, rfl, rfl⟩ := Code.runs_pure.mp h
          refine ⟨{ k with buttons := some (bs.set n { code := code }) }, by simp [hk, hbs], hhs,
            fun _ => ⟨n, hlt, ?_⟩⟩
          have hget : (bs.set n { code := code })[n]? = some { code := code } := by
            rw [List.getElem?_set_self (by omega)]
          simp only [KeysData.desc?, hget, Option.map_none]
        | some chip =>
          simp only [hgpios, hchip, Code.runs_modify_bind] at h
          refine ih h (k := { k with buttons := some ((bs.set n { code := code }).set n
            ⟨code, some chip, (irqMap chip spec.c0 spec.c1 spec.c2).1,
              (irqMap chip spec.c0 spec.c1 spec.c2).2⟩) }) (by simp [hk, hbs]) hhs rfl ?_ ?_ ?_
          · simp only [List.length_cons] at hn
            change n + 1 + nodes.length = k.nbuttons
            omega
          · simpa using hlen
          · intro j hj hjlt
            have hjn : n ≠ j := by omega
            rw [List.getElem?_set_ne hjn, List.getElem?_set_ne hjn]
            exact hrest j (by omega) hjlt

/-- After `gpio_keys_probe` the key driver is ready or was never set up. -/
theorem gpioKeysProbe_ready {env : Env} {nodes : List KeyNode} {s s' : Sys} {w : List Event}
    {r : Int} (hs : ∀ k, s.keys = some k → k.Ready)
    (h : Code.Runs (gpioKeysProbe env nodes) s w r s') : ∀ k, s'.keys = some k → k.Ready := by
  rw [gpioKeysProbe] at h
  by_cases hnodes : nodes = []
  · rw [if_pos hnodes] at h
    obtain ⟨-, -, rfl⟩ := Code.runs_pure.mp h
    exact hs
  have hpos : 0 < nodes.length := List.length_pos_iff.mpr hnodes
  rw [if_neg hnodes, runs_malloc_bind, Code.runs_modify_bind, Code.runs_ite] at h
  cases hok : env.malloc s.allocs with
  | false =>
    simp only [hok, if_true, Code.runs_pure] at h
    obtain ⟨-, -, rfl⟩ := h
    simp
  | true =>
    simp only [hok, Bool.true_eq_false, if_false, if_true] at h
    rw [runs_malloc_bind, Code.runs_ite] at h
    split at h
    · obtain ⟨-, -, rfl⟩ := Code.runs_pure.mp h
      intro k hk
      simp only [Option.some.injEq] at hk
      subst hk
      exact Or.inr ⟨rfl, 0, hpos, rfl⟩
    · rw [Code.runs_modify_bind] at h
      obtain ⟨w₁, parsed, s₁, w₂, h₁, h₂, rfl⟩ := Code.runs_bind.mp h
      obtain ⟨k', hk', hhs', hpar⟩ := gpioKeysParse_runs h₁ rfl rfl rfl (by simp) (by simp)
        (fun j _ hj => by simp [hj])
      rw [Code.runs_ite] at h₂
      split at h₂
      · rename_i hfalse
        obtain ⟨-, -, rfl⟩ := Code.runs_pure.mp h₂
        intro k hk
        rw [hk'] at hk
        obtain rfl := Option.some.inj hk
        exact Or.inr ⟨hhs', hpar hfalse⟩
      · obtain ⟨w₃, ok, s₃, w₄, h₃, h₄, rfl⟩ := Code.runs_bind.mp h₂
        obtain ⟨-, -, rfl⟩ := Code.runs_pure.mp h₄
        intro k hk
        refine Or.inl ?_
        rw [gpioKeysAcquire, Code.runs_get_bind] at h₃
        simp only [hk', hhs'] at h₃
        obtain ⟨_, _, s₄, _, h₄, h₅, -⟩ := Code.runs_bind.mp h₃
        obtain ⟨_, _, _, _, h₅, h₆, -⟩ := Code.runs_bind.mp h₅
        obtain ⟨-, -, rfl⟩ := Code.runs_pure.mp h₆
        obtain ⟨-, rfl⟩ := Code.runs_modify.mp h₅
        obtain ⟨k₄, -, rfl⟩ := Option.map_eq_some_iff.mp hk
        rfl

/-! ## How the driver stops -/

/-- The numbers of interrupts of the chips, which are fixed when they are constructed. -/
def Sys.numIrqs (s : Sys) (c : ChipId) : Nat := (s.chip c).numIrqs

theorem setHandler_numIrqs (d : IrqDesc) (h : Option Handler) :
    Code.Within (setHandler d h) (Code.Keeps Sys.numIrqs) := by
  intro s w u s' hr
  rw [setHandler, Code.runs_get_bind] at hr
  cases hc : (s.chip d.chip).handlers with
  | none => simp [hc] at hr
  | some table =>
    simp only [hc, Code.runs_modify] at hr
    obtain ⟨-, rfl⟩ := hr
    funext c
    unfold Sys.numIrqs
    by_cases hcd : c = d.chip
    · subst hcd
      simp
    · simp [Function.update_of_ne hcd]

theorem linesOnly_numIrqs {s s' : Sys} (h : LinesOnly s s') : s'.numIrqs = s.numIrqs := by
  unfold Sys.numIrqs
  rw [h.rest]

/-- An interrupt of the distributor is in group 0 when it is added, so that the asserts hold. -/
theorem gicOpAdd_eq (env : Env) (it : Nat) : gicOpAdd env it = (do
    modifyGic fun g => ((g.itAdd it).itSetCpuMask it 0x1).itSetPrio it 0x1
    pure 0) := by
  funext s
  change Code.Runs (gicOpAdd env it) s [] 0 { s with gic := _ }
  simp [gicOpAdd, modifyGic, runs_gicAssertGroup0_bind]

/-- Adding an interrupt, but for one that does not exist. -/
theorem irqAdd_stops {env : Env} {d : IrqDesc} {flags : Word} {h : Handler} {s : Sys}
    {w : List Event} {e : Fault} (hs : Code.Stops (irqAdd env d flags h) s w e) :
    e = .undefined ∨ (e = .panic ∧ ¬ d.irq < s.numIrqs d.chip) := by
  obtain ⟨hv, -, he⟩ | ⟨-, h₁⟩ := stops_irqCheckValid_bind.mp hs
  · exact Or.inr ⟨he, hv⟩
  left
  obtain k | ⟨w₁, _, s₁, w₂, -, k, -⟩ := Code.stops_bind.mp h₁
  · rw [setHandler, Code.stops_get_bind] at k
    cases hc : (s.chip d.chip).handlers with
    | none =>
      simp only [hc, Code.stops_throw] at k
      exact k.2
    | some table => simp [hc] at k
  · obtain ⟨chip, irq⟩ := d
    cases chip with
    | gic | gpc => simp [gicOpAdd_eq, modifyGic] at k
    | gpio n =>
      change Code.Stops (gpioOpAdd n irq flags) s₁ w₂ e at k
      rw [gpioOpAdd, Code.stops_get_bind] at k
      cases hhw : s₁.gpio.hwtype with
      | none =>
        simp only [hhw, Code.stops_throw] at k
        exact k.2
      | some hw =>
        simp only [hhw] at k
        exact (modifyPin_stops k).2.1

theorem irqAdd_numIrqs (env : Env) (d : IrqDesc) (flags : Word) (h : Handler) :
    Code.Within (irqAdd env d flags h) (Code.Keeps Sys.numIrqs) := by
  refine within_irqAdd (Code.keeps_closed _) (setHandler_numIrqs d _)
    (fun _ => Code.within_modify fun _ => rfl) fun n f _ s w r s' hr => ?_
  obtain ⟨-, -, p, -, rfl⟩ := modifyPin_runs hr
  rfl

/-- After an interrupt of the distributor was added, it is in group 0. -/
theorem irqAdd_group {env : Env} {d : IrqDesc} {flags : Word} {h : Handler} {s s' : Sys}
    {w : List Event} {r : Int} {it : Nat} (hit : d.line = .gic it)
    (hr : Code.Runs (irqAdd env d flags h) s w r s') : s'.gic.group it = false := by
  obtain ⟨_, _, s₁, _, -, h₁, -⟩ := Code.runs_bind.mp hr
  obtain ⟨_, _, s₂, _, -, h₂, -⟩ := Code.runs_bind.mp h₁
  obtain ⟨chip, irq⟩ := d
  cases chip with
  | gic | gpc =>
    have hirq : irq = it := Line.gic.inj hit
    subst hirq
    simp only [gicOpAdd_eq, modifyGic, Code.runs_modify_bind, Code.runs_pure] at h₂
    obtain ⟨-, -, rfl⟩ := h₂
    simp
  | gpio n => cases hit

/-- The faults of taking the interrupts of the keys: an interrupt that does not exist, or one that
leads nowhere. -/
def KeysData.Fault (k : KeysData) (num : ChipId → Nat) (e : Fault) : Prop :=
  e = .undefined ∨
    (e = .panic ∧ ∃ b < k.nbuttons, ∃ d, k.desc? b = some d ∧ ¬ d.irq < num d.chip)

theorem addButton_stops {env : Env} {d : IrqDesc} {flags : Word} {h : Handler} {s : Sys}
    {w : List Event} {e : Fault} (hs : Code.Stops (do
      let _ ← irqAdd env d flags h
      let _ ← irqEnable env d
      pure () : Kernel Unit) s w e) :
    e = .undefined ∨ (e = .panic ∧ ¬ d.irq < s.numIrqs d.chip) := by
  obtain k | ⟨w₁, _, s₁, w₂, h₁, k₁, -⟩ := Code.stops_bind.mp hs
  · exact irqAdd_stops k
  obtain k | ⟨_, _, _, _, -, k, -⟩ := Code.stops_bind.mp k₁
  · obtain ⟨-, (⟨he, hirq⟩ | ⟨he, -⟩) | ⟨-, -, it, hit, hgroup⟩⟩ := irqEnable_stops k
    · have hnum : s₁.numIrqs = s.numIrqs := irqAdd_numIrqs _ _ _ _ h₁
      exact Or.inr ⟨he, by rwa [← hnum]⟩
    · exact Or.inl he
    · rw [irqAdd_group hit h₁] at hgroup
      cases hgroup
  · exact absurd k Code.stops_pure

theorem addButtons_stops {env : Env} {k : KeysData} {s : Sys} {w : List Event} {e : Fault}
    (h : Code.Stops (forEachButton k fun b desc => do
      let _ ← irqAdd env desc 0x3 (.button b)
      let _ ← irqEnable env desc
      pure ()) s w e) : k.Fault s.numIrqs e := by
  refine (Code.stopsOnly_forEach (I := fun u => u.numIrqs = s.numIrqs)
    (Q := fun _ e => k.Fault s.numIrqs e) fun b hb => ?_).stops rfl h
  refine ⟨fun u w e hu hs => ?_, fun u w a u' hu hr => ?_, fun _ _ _ _ _ _ _ hq => hq⟩
  · cases hd : k.desc? b with
    | none =>
      simp only [hd, Code.stops_throw] at hs
      exact Or.inl hs.2
    | some d =>
      simp only [hd] at hs
      rcases addButton_stops hs with he | ⟨he, hirq⟩
      · exact Or.inl he
      · exact Or.inr ⟨he, b, List.mem_range.mp hb, d, hd, by rwa [← hu]⟩
  · cases hd : k.desc? b with
    | none => simp [hd] at hr
    | some d =>
      simp only [hd] at hr
      obtain ⟨_, _, u₁, _, h₁, k₁, -⟩ := Code.runs_bind.mp hr
      obtain ⟨_, _, u₂, _, h₂, k₂, -⟩ := Code.runs_bind.mp k₁
      obtain ⟨-, -, rfl⟩ := Code.runs_pure.mp k₂
      have hadd : u₁.numIrqs = u.numIrqs := irqAdd_numIrqs _ _ _ _ h₁
      obtain ⟨-, -, hu₂⟩ := irqEnable_runs h₂
      have hen : u'.numIrqs = u₁.numIrqs :=
        linesOnly_numIrqs (hu₂ ▸ linesOnly_onLine _ _ _ (by simp))
      exact hen.trans (hadd.trans hu)

/-- Acquiring the keys stops only while no handler is registered. -/
theorem gpioKeysAcquire_stops {env : Env} {handler : ButtonHandler} {s : Sys} {w : List Event}
    {e : Fault} (h : Code.Stops (gpioKeysAcquire env handler) s w e) :
    (∀ k, s.keys = some k → k.handlers = []) ∧
      (e = .undefined ∨ ∃ k, s.keys = some k ∧ k.Fault s.numIrqs e) := by
  rw [gpioKeysAcquire, Code.stops_get_bind] at h
  cases hk : s.keys with
  | none =>
    simp only [hk, Code.stops_throw] at h
    exact ⟨by simp, Or.inl h.2⟩
  | some k =>
    simp only [hk] at h
    obtain k₁ | ⟨_, _, _, _, -, k₁, -⟩ := Code.stops_bind.mp h
    · obtain ⟨hnil, k₂⟩ := Code.stops_runIf.mp k₁
      refine ⟨fun k' hk' => Option.some.inj hk' ▸ hnil, Or.inr ⟨k, rfl, addButtons_stops k₂⟩⟩
    · simp [setHandlers] at k₁

/-- Releasing the keys does not stop while another handler is registered. -/
theorem gpioKeysRelease_total {handler : ButtonHandler} {s : Sys} {w : List Event} {e : Fault}
    {k : KeysData} (hk : s.keys = some k)
    (hother : k.handlers.filter (fun x => decide (x ≠ handler)) ≠ []) :
    ¬ Code.Stops (gpioKeysRelease handler) s w e := by
  intro h
  rw [gpioKeysRelease, Code.stops_get_bind] at h
  simp only [hk] at h
  obtain k₁ | ⟨_, _, _, _, -, k₁, -⟩ := Code.stops_bind.mp h
  · exact Code.stops_modify k₁
  · exact hother (Code.stops_runIf.mp k₁).1

end SeCloak
