import SeCloak.Drivers.DtFaults
import SeCloak.Entry.Screen

/-!
# How a `CLOAK_SET` stops

A request can end before it returns: the display is not set up, the key driver has no handler, a
group has a value that `cloak_is_group_enabled` does not know, no key is pressed, or switching a
device faults. `cloakEntry_stops` collects these, in terms of the state before the call.
-/

namespace SeCloak
open Misc

/-! ## Drawing -/

/-- The values that `cloak_is_group_enabled` accepts (`settings.h:9-17`). -/
def GroupValid (group : Word) : Prop := group = 0 ∨ group = 4 ∨ group = 1 ∨ group = 7 ∨ group = 5

instance (group : Word) : Decidable (GroupValid group) := by
  unfold GroupValid
  infer_instance

/-- The three groups of the settings are valid. -/
def GroupsValid (a1 : Word) : Prop :=
  GroupValid ((a1 >>> 2) &&& 0x7) ∧ GroupValid ((a1 >>> 11) &&& 0x7) ∧
    GroupValid ((a1 >>> 20) &&& 0x7)

instance (a1 : Word) : Decidable (GroupsValid a1) := by
  unfold GroupsValid
  infer_instance

section Draw

variable {env : Env} {info : FbInfo} {a1 : Word} {s s' : Sys} {w : List Event} {e : Fault}

theorem cloakBlitGroup_valid {bits x : Word} {u : Unit}
    (h : Code.Runs (cloakBlitGroup env info bits x) s w u s') : GroupValid bits := by
  obtain ⟨_, _, _, _, h₁, -, -⟩ := Code.runs_bind.mp h
  rw [cloakIsGroupEnabled, Code.runs_require_bind] at h₁
  exact h₁.1

/-- Groups that are not valid are never drawn to the end. -/
theorem cloakBlitRest_valid {u : Unit} (h : Code.Runs (cloakBlitRest env info a1) s w u s') :
    GroupsValid a1 := by
  obtain ⟨_, _, _, _, h₁, k₁, -⟩ := Code.runs_bind.mp h
  obtain ⟨_, _, _, _, h₂, k₂, -⟩ := Code.runs_bind.mp k₁
  obtain ⟨_, _, _, _, h₃, -, -⟩ := Code.runs_bind.mp k₂
  exact ⟨cloakBlitGroup_valid h₁, cloakBlitGroup_valid h₂, cloakBlitGroup_valid h₃⟩

variable (hsized : info.Sized) (hfit : info.Fits)
include hsized hfit

theorem cloakBlitClasses_total {cs : List CloakClass}
    (hcs : ∀ c ∈ cs, (∀ bits, (c.switches bits).Small) ∧ ∀ i, (c.icons i).Small) :
    Code.Total (cloakBlitClasses env info a1 cs) := by
  induction cs with
  | nil => exact fun _ _ _ => Code.stops_pure
  | cons c cs ih =>
    obtain ⟨hc, hcs'⟩ := List.forall_mem_cons.mp hcs
    refine Code.total_bind ?_ fun _ => ?_
    · refine Code.total_bind (fbBlitImage_total hsized hfit (hc.1 _)) fun _ => ?_
      exact Code.total_bind (fbBlitImage_total hsized hfit (hc.2 _)) fun _ _ _ _ => Code.stops_pure
    · exact Code.total_bind (ih hcs') fun _ _ _ _ => Code.stops_pure

theorem cloakBlitGroup_stops {bits x : Word}
    (h : Code.Stops (cloakBlitGroup env info bits x) s w e) : ¬ GroupValid bits ∧ e = .panic := by
  have hgroup := displayGroup_small
  obtain k | ⟨_, en, s₁, w₁, -, k, -⟩ := Code.stops_bind.mp h
  · rw [cloakIsGroupEnabled, Code.stops_require_bind] at k
    obtain ⟨hbad, -, he⟩ | ⟨-, k⟩ := k
    · exact ⟨hbad, he⟩
    · exact absurd k Code.stops_pure
  · refine absurd k (Code.total_bind ?_ (fun _ => ?_) (s := s₁) (w := w₁) (e := e))
    · exact fbBlitImage_total hsized hfit (hgroup en true).1
    refine Code.total_bind (fbBlitImage_total hsized hfit (hgroup en true).2.1) fun _ => ?_
    refine Code.total_bind (fbBlitImage_total hsized hfit (hgroup en true).2.2.1) fun _ => ?_
    refine Code.total_bind (fbBlitImage_total hsized hfit (hgroup en _).2.2.2.1) fun _ => ?_
    refine Code.total_bind (fbBlitImage_total hsized hfit (hgroup en _).2.2.2.1) fun _ => ?_
    exact fbBlitImage_total hsized hfit (hgroup en _).2.2.2.1

theorem cloakBlitRest_stops (h : Code.Stops (cloakBlitRest env info a1) s w e) :
    ¬ GroupsValid a1 ∧ e = .panic := by
  have hmode := fun selected => (displayGroup_small true selected).2.2.2.2
  obtain k₁ | ⟨_, _, _, _, -, k₁, -⟩ := Code.stops_bind.mp h
  · obtain ⟨hbad, he⟩ := cloakBlitGroup_stops hsized hfit k₁
    exact ⟨fun hv => hbad hv.1, he⟩
  obtain k₂ | ⟨_, _, _, _, -, k₂, -⟩ := Code.stops_bind.mp k₁
  · obtain ⟨hbad, he⟩ := cloakBlitGroup_stops hsized hfit k₂
    exact ⟨fun hv => hbad hv.2.1, he⟩
  obtain k₃ | ⟨_, _, s₃, w₃, -, k₃, -⟩ := Code.stops_bind.mp k₂
  · obtain ⟨hbad, he⟩ := cloakBlitGroup_stops hsized hfit k₃
    exact ⟨fun hv => hbad hv.2.2, he⟩
  refine absurd k₃ (Code.total_bind ?_ (fun _ => ?_) (s := s₃) (w := w₃) (e := e))
  · exact fbBlitImage_total hsized hfit (hmode _)
  refine Code.total_bind (fbBlitImage_total hsized hfit (hmode _)) fun _ => ?_
  refine Code.total_bind (fbBlitImage_total hsized hfit (hmode _)) fun _ => ?_
  exact fbBlitImage_total hsized hfit (hmode _)

end Draw

/-! ## Waiting -/

/-- The loop does not end if no key gives an answer. -/
theorem cloakWait_stops {presses : List Word} {s : Sys} {w : List Event} {e : Fault} {k : KeysData}
    (hk : s.keys = some k) (hcloak : ButtonHandler.cloak ∈ k.handlers)
    (hnone : s.cloak.confirmStatus = .none) (h : Code.Stops (cloakWait presses) s w e) :
    cloakAnswer presses = .none ∧ e = .waiting := by
  induction presses generalizing s w with
  | nil => exact ⟨rfl, (Code.stops_throw.mp h).2⟩
  | cons code codes ih =>
    obtain k₁ | ⟨w₁, c, s₁, w₂, h₁, k₁, -⟩ := Code.stops_bind.mp h
    · rw [gpioKeysHandler, Code.stops_get_bind] at k₁
      simp only [hk] at k₁
      exact absurd k₁ (@pressAll_total code k.handlers false _ _ _)
    have hconf := gpioKeysHandler_confirm hk hcloak h₁
    have hk₁ : s₁.keys = some k := by
      rw [(gpioKeysHandler_pressOnly code h₁).rest]
      exact hk
    rw [hnone] at hconf
    rw [Code.stops_get_bind, Code.stops_ite, hconf] at k₁
    rw [cloakAnswer_cons]
    by_cases hend : Confirm.none.press code = .none
    · rw [if_pos hend] at k₁ ⊢
      exact ih hk₁ (hconf.trans hend) k₁
    · rw [if_neg hend] at k₁
      exact absurd k₁ Code.stops_pure

/-! ## Applying settings -/

theorem cloakApply_stops {env : Env} {clean : Prop} {X : List Int} {t : DeviceTable}
    {classes : List (CString × Bool)} {s : Sys} {w : List Event} {e : Fault}
    (hb : Balanced env clean X s) (h : Code.Stops (cloakApply env t classes) s w e) :
    PolicyFault env t true s e ∨ PolicyFault env t false s e := by
  obtain k | ⟨w₁, _, s₁, w₂, h₁, k, -⟩ := Code.stops_bind.mp h
  · left
    exact (Code.stopsOnly_forEach fun _ _ => dtEnableClass_stopsOnly).stops hb k
  · right
    have hb₁ := within_enableClasses (Code.preserves_closed _)
      (fun _ => dtEnableDevice_balanced) h₁ hb
    have hpol := within_enableClasses policyOnly_closed (fun _ => dtEnableDevice_policyOnly) h₁
    have hfault : PolicyFault env t false s₁ e :=
      (Code.stopsOnly_forEach fun _ _ =>
        Code.stopsOnly_runIf dtEnableClass_stopsOnly).stops hb₁ k
    exact hfault.back hpol fun hb => by cases hb

/-- The faults of the policy depend on flags, chips and ports. -/
theorem PolicyFault.congr {env : Env} {t : DeviceTable} {b : Bool} {s s' : Sys} {e : Fault}
    (h : PolicyFault env t b s' e) (hen : s'.enabled = s.enabled) (hchip : s'.chip = s.chip)
    (hgpio : s'.gpio = s.gpio) : PolicyFault env t b s e := by
  have hline : ∀ l, s'.hasLine l ↔ s.hasLine l := by
    intro l
    cases l with
    | gic it => exact Iff.rfl
    | gpio n pin => unfold Sys.hasLine; rw [hgpio]
  unfold PolicyFault Device.Faulty Sys.NoLine at h ⊢
  simpa only [hen, hchip, hline] using h

/-! ## The dialog -/

/-- How the dialog can stop, once framebuffer and keys are acquired. The groups are checked before
the user is asked. -/
inductive DialogFault (env : Env) (t : DeviceTable) (presses : List Word) (a1 : Word) (s : Sys) :
    Fault → Prop
  | group : ¬ GroupsValid a1 → DialogFault env t presses a1 s .panic
  | waiting : GroupsValid a1 → cloakAnswer presses = .none → DialogFault env t presses a1 s .waiting
  | policy {e : Fault} (b : Bool) : GroupsValid a1 → cloakAnswer presses = .allow →
      PolicyFault env t b s e → DialogFault env t presses a1 s e

theorem DialogFault.congr {env : Env} {t : DeviceTable} {presses : List Word} {a1 : Word}
    {s s' : Sys} {e : Fault} (h : DialogFault env t presses a1 s' e) (hen : s'.enabled = s.enabled)
    (hchip : s'.chip = s.chip) (hgpio : s'.gpio = s.gpio) : DialogFault env t presses a1 s e := by
  cases h with
  | group hbad => exact .group hbad
  | waiting hvalid hnone => exact .waiting hvalid hnone
  | policy b hvalid hallow hfault => exact .policy b hvalid hallow (hfault.congr hen hchip hgpio)

theorem cloakAnswered_keys {env : Env} {t : DeviceTable} {info : FbInfo} {a1 : Word}
    {classes : List (CString × Bool)} {s s' : Sys} {w : List Event} {u : Unit}
    (h : Code.Runs (cloakAnswered env t info a1 classes) s w u s') : s'.keys = s.keys := by
  obtain ⟨_, _, s₁, -, hclear, happly⟩ := cloakAnswered_runs h
  rw [hclear.rest]
  change s₁.keys = s.keys
  by_cases hallow : s.cloak.confirmStatus = .allow
  · rw [if_pos hallow] at happly
    obtain ⟨s₂, hrun, rfl⟩ := happly
    change s₂.keys = s.keys
    rw [(cloakApply_policyOnly hrun).rest]
  · rw [if_neg hallow] at happly
    rw [happly.2]

section Dialog

variable {env : Env} {t : DeviceTable} {info : FbInfo} {clean : Prop} {X : List Int} {a1 : Word}
  {s : Sys} {w : List Event} {e : Fault} (hsized : info.Sized) (hfit : info.Fits)
include hsized hfit

theorem cloakAnswered_stops {classes : List (CString × Bool)} (hb : Balanced env clean X s)
    (h : Code.Stops (cloakAnswered env t info a1 classes) s w e) :
    s.cloak.confirmStatus = .allow ∧ ∃ b, PolicyFault env t b s e := by
  rw [cloakAnswered, Code.stops_get_bind, Code.stops_ite] at h
  by_cases hallow : s.cloak.confirmStatus = .allow
  · rw [if_pos hallow] at h
    refine ⟨hallow, ?_⟩
    obtain k | ⟨_, _, _, _, -, k, -⟩ := Code.stops_bind.mp h
    · rcases cloakApply_stops hb k with hfault | hfault
      · exact ⟨true, hfault⟩
      · exact ⟨false, hfault⟩
    · rw [Code.stops_modify_bind] at k
      exact absurd k (@fbClear_total info hsized hfit _ _ _ _ _ _)
  · rw [if_neg hallow] at h
    exact absurd h (@fbClear_total info hsized hfit _ _ _ _ _ _)

theorem cloakDialog_stops {presses : List Word} {k : KeysData} (hk : s.keys = some k)
    (hhs : k.handlers = [.cloak, .secpwr]) (hb : Balanced env clean X s)
    (h : Code.Stops (cloakDialog env t presses info a1) s w e) :
    DialogFault env t presses a1 s e := by
  obtain k₁ | ⟨w₁, _, s₁, _, h₁, k₁, -⟩ := Code.stops_bind.mp h
  · refine absurd k₁ (Code.total_forEach (fun b hb => ?_) (s := s) (w := w) (e := e))
    exact fbBlitImage_total hsized hfit (displayStatic_small b hb)
  obtain k₂ | ⟨w₂, classes, s₂, _, h₂, k₂, -⟩ := Code.stops_bind.mp k₁
  · exact absurd k₂ (@cloakBlitClasses_total env info a1 hsized hfit _ cloakClasses_small _ _ _)
  obtain k₃ | ⟨w₃, _, s₃, _, h₃, k₃, -⟩ := Code.stops_bind.mp k₂
  · obtain ⟨hbad, rfl⟩ := cloakBlitRest_stops hsized hfit k₃
    exact .group hbad
  -- from here on the screen is drawn
  have hvalid := cloakBlitRest_valid h₃
  have hdraw : PaintOnly s (w₁ ++ (w₂ ++ w₃)) s₃ :=
    paintOnly_closed.append (fbBlitAll_paintOnly _ _ _ h₁)
      (paintOnly_closed.append (cloakBlitClasses_runs h₂).2 (cloakBlitRest_paintOnly _ _ _ h₃))
  have hk₃ : s₃.keys = some k := by
    rw [hdraw.rest]
    exact hk
  have hcloak : ButtonHandler.cloak ∈ k.handlers := by
    rw [hhs]
    exact List.mem_cons_self
  rw [Code.stops_modify_bind] at k₃
  obtain k₄ | ⟨w₄, _, s₄, _, h₄, k₄, -⟩ := Code.stops_bind.mp k₃
  · obtain ⟨hnone, rfl⟩ := cloakWait_stops (k := k) (by exact hk₃) hcloak rfl k₄
    exact .waiting hvalid hnone
  obtain ⟨hpress, hstatus, -⟩ := cloakWait_runs (k := k) (by exact hk₃) hcloak rfl h₄
  have hrest₄ : s₄ = { s with secpwr := s₄.secpwr, fb := { s.fb with mem := s₄.fb.mem }
                              cloak := { s.cloak with
                                confirmStatus := s₄.cloak.confirmStatus } } := by
    rw [hpress.rest, hdraw.rest]
  have hb₄ : Balanced env clean X s₄ := by
    obtain ⟨L, ha⟩ := hb
    refine ⟨L, ha.congr ?_ ?_ ?_ (Nat.le_of_eq ?_)⟩
    all_goals rw [hrest₄]
  obtain k₅ | ⟨w₅, _, s₅, _, h₅, k₅, -⟩ := Code.stops_bind.mp k₄
  · obtain ⟨hallow, b, hfault⟩ := cloakAnswered_stops hsized hfit hb₄ k₅
    refine .policy b hvalid (hstatus.symm.trans hallow) (hfault.congr ?_ ?_ ?_)
    all_goals rw [hrest₄]
  · have hk₅ : s₅.keys = some k := by
      rw [cloakAnswered_keys h₅, hrest₄]
      exact hk
    refine absurd k₅ (gpioKeysRelease_total hk₅ ?_)
    rw [hhs]
    decide

end Dialog

/-! ## The call -/

/-- The accounts balance and CPMEM is mapped: what giving the display back needs. -/
def Held (env : Env) (clean : Prop) (X : List Int) (s : Sys) : Prop :=
  Balanced env clean X s ∧ s.fb.cpmemVaddr.isSome = true

theorem Held.congr {env : Env} {clean : Prop} {X : List Int} {s s' : Sys} (h : Held env clean X s)
    (hen : s'.enabled = s.enabled) (hcsu : s'.csu = s.csu) (hreg : s'.regions = s.regions)
    (hal : s'.allocs = s.allocs) (hfb : s'.fb.cpmemVaddr = s.fb.cpmemVaddr) :
    Held env clean X s' := by
  obtain ⟨L, ha⟩ := h.1
  exact ⟨⟨L, ha.congr hen hcsu hreg (Nat.le_of_eq hal.symm)⟩, hfb ▸ h.2⟩

theorem cloakWait_pressOnly (presses : List Word) : Code.Within (cloakWait presses) PressOnly := by
  induction presses with
  | nil => exact Code.within_throw _
  | cons code codes ih =>
    refine Code.within_bind pressOnly_closed (gpioKeysHandler_pressOnly code) fun _ => ?_
    refine Code.within_bind pressOnly_closed (Code.within_get pressOnly_closed) fun s => ?_
    exact Code.within_ite ih (Code.within_pure pressOnly_closed _)

theorem cloakDialog_held {env : Env} {t : DeviceTable} {info : FbInfo} {a1 : Word} {clean : Prop}
    {X : List Int} {presses : List Word} :
    Code.Within (cloakDialog env t presses info a1) (Code.Preserves (Held env clean X)) := by
  have hclosed := Code.preserves_closed (τ := Event) (Held env clean X)
  have hpaint : ∀ s w s', PaintOnly s w s' → Held env clean X s → Held env clean X s' := by
    intro s w s' hr hs
    refine hs.congr ?_ ?_ ?_ ?_ ?_ <;> rw [hr.rest]
  have hclear : ∀ r g b, Code.Within (fbClear info r g b) (Code.Preserves (Held env clean X)) :=
    fun r g b s w u s' h => hpaint s w s' (fbClear_paintOnly _ _ _ _ h)
  refine Code.within_bind hclosed (fun s w u s' h => ?_) fun _ => ?_
  · exact hpaint s w s' (fbBlitAll_paintOnly _ _ _ h)
  refine Code.within_bind hclosed (fun s w u s' h => ?_) fun classes => ?_
  · exact hpaint s w s' (cloakBlitClasses_runs h).2
  refine Code.within_bind hclosed (fun s w u s' h => ?_) fun _ => ?_
  · exact hpaint s w s' (cloakBlitRest_paintOnly _ _ _ h)
  refine Code.within_bind hclosed (Code.within_modify fun s hs => ?_) fun _ => ?_
  · exact hs.congr rfl rfl rfl rfl rfl
  refine Code.within_bind hclosed (fun s w u s' h hs => ?_) fun _ => ?_
  · have hrest := (cloakWait_pressOnly presses h).rest
    refine hs.congr ?_ ?_ ?_ ?_ ?_ <;> rw [hrest]
  refine Code.within_bind hclosed ?_ fun _ => ?_
  · refine Code.within_bind hclosed (Code.within_get hclosed) fun s => ?_
    refine Code.within_ite ?_ (hclear _ _ _)
    refine Code.within_bind hclosed (fun s w u s' h hs => ?_) fun _ => ?_
    · refine ⟨cloakApply_balanced h hs.1, ?_⟩
      rw [(cloakApply_policyOnly h).rest]
      exact hs.2
    · refine Code.within_bind hclosed (Code.within_modify fun s hs => ?_) fun _ => hclear _ _ _
      exact hs.congr rfl rfl rfl rfl rfl
  · intro s w u s' h hs
    have hrest := (gpioKeysRelease_inputOnly _ h).rest
    refine hs.congr ?_ ?_ ?_ ?_ ?_ <;> rw [hrest]

/-- How a `CLOAK_SET` can stop, in terms of the state before it. -/
inductive SetFault (env : Env) (t : DeviceTable) (presses : List Word) (a1 : Word) (s : Sys) :
    Fault → Prop
  | display : ¬ s.DisplayReady env → SetFault env t presses a1 s .undefined
  | keys {e : Fault} : (∀ k, s.keys = some k → k.handlers = []) →
      (e = .undefined ∨ ∃ k, s.keys = some k ∧ k.Fault s.numIrqs e) → SetFault env t presses a1 s e
  | dialog {e : Fault} : DialogFault env t presses a1 s e → SetFault env t presses a1 s e

theorem cloakSetBody_stops {env : Env} {t : DeviceTable} {presses : List Word} {a1 : Word} {s : Sys}
    {w : List Event} {e : Fault} {clean : Prop} {X : List Int} (hready : s.KeysReady)
    (hb : Balanced env clean X s) (h : Code.Stops (cloakSetBody env t presses a1) s w e) :
    SetFault env t presses a1 s e := by
  obtain k₁ | ⟨w₁, res, s₁, _, h₁, k₁, -⟩ := Code.stops_bind.mp h
  · obtain ⟨hno, rfl⟩ := fbAcquire_stops k₁
    exact .display hno
  obtain ⟨rfl, hmap, -⟩ := fbAcquire_stages h₁
  have hfit := fbAcquire_fits h₁
  have hsized := fbInfoOf_sized env s.fb.cpmem
  have hfb := (fbAcquire_fbOnly h₁).rest
  have hheld₁ : Held env clean (fbCsl :: X) s₁ := by
    obtain ⟨L, ha⟩ := hb
    refine ⟨⟨L, (fbAcquire_accounts h₁ ha).1⟩, ?_⟩
    rw [hfb]
    exact hmap
  have hkeys₁ : s₁.keys = s.keys := by rw [hfb]
  have hnum₁ : s₁.numIrqs = s.numIrqs := by
    unfold Sys.numIrqs
    rw [hfb]
  obtain k₂ | ⟨w₂, ok, s₂, _, h₂, k₂, -⟩ := Code.stops_bind.mp k₁
  · obtain ⟨hnil, hfault⟩ := gpioKeysAcquire_stops k₂
    rw [hkeys₁, hnum₁] at hfault
    exact .keys (hkeys₁ ▸ hnil) hfault
  have hready₁ : ∀ k, s₁.keys = some k → k.Ready := by
    rw [hkeys₁]
    exact hready
  obtain ⟨rfl, k, -, -, hs₂⟩ := gpioKeysAcquire_ready hready₁ h₂
  have hheld₂ : Held env clean (fbCsl :: X) s₂ := by
    refine hheld₁.congr ?_ ?_ ?_ ?_ ?_ <;> rw [hs₂]
  have hk₂ : s₂.keys = some { k with handlers := [.cloak, .secpwr] } := by rw [hs₂]
  obtain k₃ | ⟨w₃, _, s₃, _, h₃, k₃, -⟩ := Code.stops_bind.mp k₂
  · obtain ⟨-, k₃⟩ := Code.stops_runIf.mp k₃
    have hfault := cloakDialog_stops hsized hfit hk₂ rfl hheld₂.1 k₃
    refine .dialog (hfault.congr ?_ ?_ ?_)
    all_goals rw [hs₂, hfb]
  rcases Code.runs_runIf.mp h₃ with ⟨-, h₃⟩ | ⟨hn, -, -⟩
  swap
  · exact absurd rfl hn
  have hheld₃ := cloakDialog_held h₃ hheld₂
  obtain k₄ | ⟨_, _, _, _, -, k₄, -⟩ := Code.stops_bind.mp k₃
  · exact absurd k₄ (fbRelease_total hheld₃.2 hheld₃.1)
  · exact absurd k₄ Code.stops_pure

/-- How a call can stop while the lock is free. -/
theorem cloakEntry_stops {env : Env} {t : DeviceTable} {presses : List Word} {args : SmcArgs}
    {s : Sys} {w : List Event} {e : Fault} {clean : Prop} {X : List Int}
    (hlock : s.cloak.lock = 0) (hready : s.KeysReady) (hb : Balanced env clean X s)
    (h : Code.Stops (cloakEntry env t presses args) s w e) :
    args.a0 = opteeSmcCloakSet ∧ SetFault env t presses args.a1 s e := by
  have hunlock : ∀ (a : SmcArgs) s w e, ¬ Code.Stops (do
      cpuSpinUnlock env 1
      pure a) s w e := by
    intro a s w e
    simp [cpuSpinUnlock, kassert, Code.bind_assoc_eq]
  have hfree := cpuSpinTrylock_free hlock
  rw [cloakEntry, Code.stops_ite] at h
  by_cases hset : args.a0 = opteeSmcCloakSet
  · rw [if_pos hset] at h
    refine ⟨hset, ?_⟩
    obtain k | ⟨_, locked, s₁, _, h₁, k, -⟩ := Code.stops_bind.mp h
    · exact absurd k (Code.not_stops_of_runs hfree)
    obtain ⟨-, ⟨-, rfl, rfl⟩ | ⟨hheld, -, -⟩⟩ := cpuSpinTrylock_runs.mp h₁
    swap
    · exact absurd hlock hheld
    rw [if_pos rfl] at k
    obtain k₁ | ⟨_, _, _, _, -, k₁, -⟩ := Code.stops_bind.mp k
    · have hb' : Balanced env clean X s.locked := by
        obtain ⟨L, ha⟩ := hb
        exact ⟨L, ha.congr rfl rfl rfl (Nat.le_refl _)⟩
      have hfault := cloakSetBody_stops (s := s.locked) hready hb' k₁
      cases hfault with
      | display hno => exact .display hno
      | keys hnil hfault => exact .keys hnil hfault
      | dialog hfault => exact .dialog (hfault.congr rfl rfl rfl)
    · exact absurd k₁ (hunlock _ _ _ _)
  · rw [if_neg hset, Code.stops_ite] at h
    split at h
    · obtain k | ⟨_, locked, s₁, _, h₁, k, -⟩ := Code.stops_bind.mp h
      · exact absurd k (Code.not_stops_of_runs hfree)
      obtain ⟨-, ⟨-, rfl, rfl⟩ | ⟨hheld, -, -⟩⟩ := cpuSpinTrylock_runs.mp h₁
      swap
      · exact absurd hlock hheld
      rw [if_pos rfl, cloakGetBody, Code.bind_assoc_eq, Code.stops_get_bind,
        Code.stops_pure_bind] at k
      exact absurd k (hunlock _ _ _ _)
    · exact absurd h Code.stops_pure

end SeCloak
