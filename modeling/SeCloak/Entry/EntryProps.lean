import SeCloak.Entry.Entry

/-!
# The stages of a `CLOAK_SET`

A successful run of `cloak_entry_set` always passes through the same stages: acquire framebuffer
and keys, draw, wait for a key, apply or not, release. `cloakSetBody_stages` takes a run apart
into them, so that each property is proved stage by stage.
-/

namespace SeCloak
open Misc

/-! ## Waiting for the answer -/

/-- The answer that a sequence of key presses gives: the first of the two confirmation keys. -/
def cloakAnswer : List Word → Confirm
  | [] => .none
  | code :: codes =>
    if code = keyHomepage then .allow else if code = keyBack then .deny else cloakAnswer codes

/-- What a press does to the confirmation when the cloak handler is registered. -/
def Confirm.press (c : Confirm) (code : Word) : Confirm :=
  if code = keyHomepage then .allow else if code = keyBack then .deny else c

theorem Confirm.press_press (c : Confirm) (code : Word) :
    (c.press code).press code = c.press code := by
  unfold Confirm.press
  split_ifs <;> rfl

theorem pressAll_confirm {code : Word} {hs : List ButtonHandler} {consume r : Bool} {s s' : Sys}
    {w : List Event} (h : Code.Runs (pressAll code hs consume) s w r s') :
    s'.cloak.confirmStatus =
      if ButtonHandler.cloak ∈ hs then s.cloak.confirmStatus.press code
      else s.cloak.confirmStatus := by
  induction hs generalizing s w consume with
  | nil =>
    obtain ⟨-, -, rfl⟩ := Code.runs_pure.mp h
    simp
  | cons bh hs ih =>
    obtain ⟨w₁, c, s₁, w₂, h₁, h₂, rfl⟩ := Code.runs_bind.mp h
    have hrest := ih h₂
    cases bh with
    | cloak =>
      rw [ButtonHandler.onPress, cloakButtonPressHandler, Code.runs_modify_bind,
        Code.runs_pure] at h₁
      obtain ⟨-, -, rfl⟩ := h₁
      rw [if_pos List.mem_cons_self, hrest]
      change (if _ then (s.cloak.confirmStatus.press code).press code
        else s.cloak.confirmStatus.press code) = _
      rw [Confirm.press_press, ite_self]
    | secpwr =>
      rw [ButtonHandler.onPress, secpwrButtonPressHandler, Code.runs_modify_bind,
        Code.runs_pure] at h₁
      obtain ⟨-, -, rfl⟩ := h₁
      simpa using hrest

theorem gpioKeysHandler_confirm {code : Word} {s s' : Sys} {w : List Event} {r : Bool} {k : KeysData}
    (hk : s.keys = some k) (hcloak : ButtonHandler.cloak ∈ k.handlers)
    (h : Code.Runs (gpioKeysHandler code) s w r s') :
    s'.cloak.confirmStatus = s.cloak.confirmStatus.press code := by
  rw [gpioKeysHandler, Code.runs_get_bind] at h
  simp only [hk] at h
  have hconf := pressAll_confirm h
  rwa [if_pos hcloak] at hconf

/-- The answer is the one of the first key that gives one. -/
theorem cloakAnswer_cons (code : Word) (codes : List Word) : cloakAnswer (code :: codes) =
    if Confirm.none.press code = .none then cloakAnswer codes else Confirm.none.press code := by
  unfold Confirm.press
  rw [cloakAnswer]
  split_ifs <;> first | rfl | contradiction

/-- The loop ends with the answer of the user. -/
theorem cloakWait_runs {presses : List Word} {s s' : Sys} {w : List Event} {u : Unit} {k : KeysData}
    (hk : s.keys = some k) (hcloak : ButtonHandler.cloak ∈ k.handlers)
    (hnone : s.cloak.confirmStatus = .none) (h : Code.Runs (cloakWait presses) s w u s') :
    PressOnly s w s' ∧ s'.cloak.confirmStatus = cloakAnswer presses ∧
      cloakAnswer presses ≠ .none := by
  induction presses generalizing s w with
  | nil => exact absurd h Code.runs_throw
  | cons code codes ih =>
    obtain ⟨w₁, c, s₁, w₂, h₁, h₂, rfl⟩ := Code.runs_bind.mp h
    have hpress := gpioKeysHandler_pressOnly code h₁
    have hconf := gpioKeysHandler_confirm hk hcloak h₁
    rw [hnone] at hconf
    have hk₁ : s₁.keys = some k := by
      rw [hpress.rest]
      exact hk
    rw [Code.runs_get_bind, Code.runs_ite, hconf] at h₂
    rw [cloakAnswer_cons]
    by_cases hend : Confirm.none.press code = .none
    · rw [if_pos hend] at h₂ ⊢
      obtain ⟨hpress', hans, hne⟩ := ih hk₁ (hconf.trans hend) h₂
      exact ⟨pressOnly_closed.append hpress hpress', hans, hne⟩
    · rw [if_neg hend] at h₂ ⊢
      obtain ⟨rfl, -, rfl⟩ := Code.runs_pure.mp h₂
      refine ⟨?_, hconf, hend⟩
      rw [List.append_nil]
      exact hpress

/-! ## Stages -/

/-- The classes with the verdicts of the settings. -/
def cloakVerdicts (a1 : Word) : List (CString × Bool) :=
  cloakClasses.map fun c => (c.name, c.allow a1)

theorem gpioKeysAcquire_cloak {env : Env} {h : ButtonHandler} {s s' : Sys} {w : List Event}
    {r : Bool} (hr : Code.Runs (gpioKeysAcquire env h) s w r s') :
    r = true ∧ ∃ k, s'.keys = some k ∧ h ∈ k.handlers := by
  rw [gpioKeysAcquire, Code.runs_get_bind] at hr
  cases hk : s.keys with
  | none => simp [hk] at hr
  | some k =>
    simp only [hk] at hr
    obtain ⟨w₁, _, s₁, w₂, h₁, h₂, rfl⟩ := Code.runs_bind.mp hr
    obtain ⟨w₃, _, s₃, w₄, h₃, h₄, rfl⟩ := Code.runs_bind.mp h₂
    obtain ⟨-, rfl, rfl⟩ := Code.runs_pure.mp h₄
    obtain ⟨-, rfl⟩ := Code.runs_modify.mp h₃
    have hk₁ : s₁.keys = some k := by
      rcases Code.runs_runIf.mp h₁ with ⟨-, h₁⟩ | ⟨-, -, rfl⟩
      · rw [(addButtons_irqOnly env k h₁).rest]
        exact hk
      · exact hk
    exact ⟨rfl, { k with handlers := h :: k.handlers }, by simp [hk₁], by simp⟩

/-- The stages of a `CLOAK_SET` that holds the lock. -/
structure SetStages (env : Env) (t : DeviceTable) (presses : List Word) (a1 : Word) (s : Sys)
    (w : List Event) (s' : Sys) where
  fb : FbInfo
  /-- after acquiring framebuffer and keys -/
  (sFb sKeys : Sys)
  /-- after drawing, with the answer, after applying it, after clearing, after releasing the keys -/
  (sDrawn sAnswer sApplied sCleared sReleased : Sys)
  (wFb wDrawn wApplied wCleared wEnd : List Event)
  buffer : fb.buffer.isSome = true
  acquireFb : Code.Runs (fbAcquire env 0xFF 0xFF 0xFF) s wFb (some fb) sFb
  acquireKeys : Code.Runs (gpioKeysAcquire env .cloak) sFb [] true sKeys
  draw : PaintOnly sKeys wDrawn sDrawn
  answer : PressOnly { sDrawn with cloak := { sDrawn.cloak with confirmStatus := .none } } [] sAnswer
  status : sAnswer.cloak.confirmStatus = cloakAnswer presses
  answered : cloakAnswer presses ≠ .none
  apply : if cloakAnswer presses = .allow then
      ∃ sPolicy, Code.Runs (cloakApply env t (cloakVerdicts a1)) sAnswer wApplied () sPolicy ∧
        sApplied = { sPolicy with cloak := { sPolicy.cloak with prevSettings := a1 } }
    else wApplied = [] ∧ sApplied = sAnswer
  clear : PaintOnly sApplied wCleared sCleared
  releaseKeys : Code.Runs (gpioKeysRelease .cloak) sCleared [] () sReleased
  releaseFb : Code.Runs (fbRelease env fb) sReleased wEnd () s'
  events : w = wFb ++ wDrawn ++ wApplied ++ wCleared ++ wEnd

theorem cloakAnswered_runs {env : Env} {t : DeviceTable} {fb : FbInfo} {a1 : Word}
    {classes : List (CString × Bool)} {s s' : Sys} {w : List Event} {u : Unit}
    (h : Code.Runs (cloakAnswered env t fb a1 classes) s w u s') :
    ∃ w₁ w₂ s₁, w = w₁ ++ w₂ ∧ PaintOnly s₁ w₂ s' ∧
      if s.cloak.confirmStatus = .allow then
        ∃ s₂, Code.Runs (cloakApply env t classes) s w₁ () s₂ ∧
          s₁ = { s₂ with cloak := { s₂.cloak with prevSettings := a1 } }
      else w₁ = [] ∧ s₁ = s := by
  rw [cloakAnswered, Code.runs_get_bind, Code.runs_ite] at h
  by_cases hallow : s.cloak.confirmStatus = .allow
  · rw [if_pos hallow] at h
    obtain ⟨w₁, _, s₂, w₂, h₁, h₂, rfl⟩ := Code.runs_bind.mp h
    rw [Code.runs_modify_bind] at h₂
    refine ⟨w₁, w₂, _, rfl, fbClear_paintOnly _ _ _ _ h₂, ?_⟩
    rw [if_pos hallow]
    exact ⟨s₂, h₁, rfl⟩
  · rw [if_neg hallow] at h
    refine ⟨[], w, s, rfl, fbClear_paintOnly _ _ _ _ h, ?_⟩
    rw [if_neg hallow]
    exact ⟨rfl, rfl⟩

/-- A run of `cloak_entry_set` that holds the lock passes through all stages and returns OK. -/
theorem cloakSetBody_stages {env : Env} {t : DeviceTable} {presses : List Word} {a1 err : Word}
    {s s' : Sys} {w : List Event} (h : Code.Runs (cloakSetBody env t presses a1) s w err s') :
    err = opteeSmcReturnOk ∧ Nonempty (SetStages env t presses a1 s w s') := by
  obtain ⟨w₁, res, s₁, v₁, h₁, k₁, rfl⟩ := Code.runs_bind.mp h
  obtain ⟨fb, -, -, -, rfl, hbuf, -⟩ := fbAcquire_runs h₁
  obtain ⟨w₂, ok, s₂, v₂, h₂, k₂, rfl⟩ := Code.runs_bind.mp k₁
  obtain ⟨w₃, _, s₃, v₃, h₃, k₃, rfl⟩ := Code.runs_bind.mp k₂
  obtain ⟨w₄, _, s₄, v₄, h₄, k₄, rfl⟩ := Code.runs_bind.mp k₃
  obtain ⟨rfl, rfl, rfl⟩ := Code.runs_pure.mp k₄
  obtain ⟨rfl, k, hk, hcloak⟩ := gpioKeysAcquire_cloak h₂
  obtain rfl := (gpioKeysAcquire_inputOnly env _ h₂).silent
  refine ⟨rfl, ?_⟩
  rcases Code.runs_runIf.mp h₃ with ⟨-, h₃⟩ | ⟨hn, -, -⟩
  swap
  · exact absurd rfl hn
  -- the dialog
  obtain ⟨u₁, _, t₁, x₁, g₁, j₁, rfl⟩ := Code.runs_bind.mp h₃
  obtain ⟨u₂, classes, t₂, x₂, g₂, j₂, rfl⟩ := Code.runs_bind.mp j₁
  obtain ⟨u₃, _, t₃, x₃, g₃, j₃, rfl⟩ := Code.runs_bind.mp j₂
  rw [Code.runs_modify_bind] at j₃
  obtain ⟨u₄, _, t₄, x₄, g₄, j₄, rfl⟩ := Code.runs_bind.mp j₃
  obtain ⟨u₅, _, t₅, u₆, g₅, g₆, rfl⟩ := Code.runs_bind.mp j₄
  obtain ⟨rfl, hdraw₂⟩ := cloakBlitClasses_runs g₂
  have hdraw : PaintOnly s₂ (u₁ ++ (u₂ ++ u₃)) t₃ :=
    paintOnly_closed.append (fbBlitAll_paintOnly _ _ _ g₁)
      (paintOnly_closed.append hdraw₂ (cloakBlitRest_paintOnly _ _ _ g₃))
  have hk₃ : t₃.keys = some k := by
    rw [hdraw.rest]
    exact hk
  obtain ⟨hpress, hstatus, hne⟩ := cloakWait_runs (k := k) (by exact hk₃) hcloak rfl g₄
  obtain rfl := hpress.silent
  obtain ⟨y₁, y₂, r₁, rfl, hclear, happly⟩ := cloakAnswered_runs g₅
  obtain rfl := (gpioKeysRelease_inputOnly _ g₆).silent
  rw [hstatus] at happly
  exact ⟨{
    fb := fb, sFb := s₁, sKeys := s₂, sDrawn := t₃, sAnswer := t₄, sApplied := r₁, sCleared := t₅
    sReleased := s₃, wFb := w₁, wDrawn := u₁ ++ (u₂ ++ u₃), wApplied := y₁, wCleared := y₂
    wEnd := w₄, buffer := hbuf, acquireFb := h₁, acquireKeys := h₂, draw := hdraw
    answer := hpress, status := hstatus, answered := hne, apply := happly, clear := hclear
    releaseKeys := g₆, releaseFb := h₄, events := by simp }⟩

/-! ## Applying settings -/

section Apply

variable {env : Env} {t : DeviceTable} {R : Sys → List Event → Sys → Prop} (hR : Code.Closed R)
include hR

theorem within_enableClasses {classes : List (CString × Bool)}
    (hd : ∀ d, Code.Within (dtEnableDevice env d true) R) :
    Code.Within (Code.forEach (fun c => dtEnableClass env t c.1 true) classes) R :=
  Code.within_forEach hR fun _ _ => within_dtEnableClass hR hd

theorem within_disableClasses {classes : List (CString × Bool)}
    (hd : ∀ d, Code.Within (dtEnableDevice env d false) R) :
    Code.Within (Code.forEach
      (fun c => Code.runIf (c.2 = false) (dtEnableClass env t c.1 false)) classes) R :=
  Code.within_forEach hR fun _ _ => Code.within_runIf hR (within_dtEnableClass hR hd)

theorem within_cloakApply {classes : List (CString × Bool)}
    (hd : ∀ d b, Code.Within (dtEnableDevice env d b) R) :
    Code.Within (cloakApply env t classes) R :=
  Code.within_bind hR (within_enableClasses hR fun d => hd d true)
    fun _ => within_disableClasses hR fun d => hd d false

end Apply

theorem cloakApply_policyOnly {env : Env} {t : DeviceTable} {classes : List (CString × Bool)} :
    Code.Within (cloakApply env t classes) (fun s _ s' => PolicyOnly s s') :=
  within_cloakApply policyOnly_closed fun _ _ => dtEnableDevice_policyOnly

/-! ## What the stages leave alone -/

namespace SetStages

variable {env : Env} {t : DeviceTable} {presses : List Word} {a1 : Word} {s s' : Sys}
  {w : List Event} (h : SetStages env t presses a1 s w s')
include h

/-- The flags do not change before the settings are applied. -/
theorem enabled_before : h.sAnswer.enabled = s.enabled := by
  have h₁ := (fbAcquire_fbOnly h.acquireFb).rest
  have h₂ := (gpioKeysAcquire_inputOnly _ _ h.acquireKeys).rest
  rw [h.answer.rest, h.draw.rest, h₂, h₁]

/-- Nor do they change afterwards. -/
theorem enabled_after : s'.enabled = h.sApplied.enabled := by
  have h₁ : h.sCleared.enabled = h.sApplied.enabled := by rw [h.clear.rest]
  have h₂ := congrArg Sys.enabled (gpioKeysRelease_inputOnly _ h.releaseKeys).rest
  have h₃ := congrArg Sys.enabled (fbRelease_fbOnly h.releaseFb).rest
  exact h₃.trans (h₂.trans h₁)

/-- The state that the settings are applied to, or not. -/
theorem applied_policyOnly :
    PolicyOnly h.sAnswer { h.sApplied with cloak := h.sAnswer.cloak } ∧
      h.sApplied.cloak = { h.sAnswer.cloak with
        prevSettings := if cloakAnswer presses = .allow then a1 else h.sAnswer.cloak.prevSettings } := by
  have happly := h.apply
  by_cases hallow : cloakAnswer presses = .allow
  · rw [if_pos hallow] at happly ⊢
    obtain ⟨sP, hrun, heq⟩ := happly
    have hpol := cloakApply_policyOnly hrun
    have hcloak : sP.cloak = h.sAnswer.cloak := by rw [hpol.rest]
    rw [heq, hcloak]
    refine ⟨?_, rfl⟩
    rw [← hcloak]
    exact hpol
  · rw [if_neg hallow] at happly ⊢
    rw [happly.2]
    exact ⟨PolicyOnly.refl _, rfl⟩

/-- Before the settings are applied, lock and settings are those of the start. -/
theorem cloak_before : h.sAnswer.cloak.lock = s.cloak.lock ∧
    h.sAnswer.cloak.prevSettings = s.cloak.prevSettings := by
  have h₁ := (fbAcquire_fbOnly h.acquireFb).rest
  have h₂ := (gpioKeysAcquire_inputOnly _ _ h.acquireKeys).rest
  constructor <;> rw [h.answer.rest, h.draw.rest, h₂, h₁]

theorem cloak_after : s'.cloak.lock = h.sApplied.cloak.lock ∧
    s'.cloak.prevSettings = h.sApplied.cloak.prevSettings := by
  have h₁ : h.sCleared.cloak = h.sApplied.cloak := by rw [h.clear.rest]
  have h₂ := (gpioKeysRelease_inputOnly _ h.releaseKeys).rest
  have h₃ := congrArg Sys.cloak (fbRelease_fbOnly h.releaseFb).rest
  rw [h₃, ← h₁]
  exact ⟨congrArg (fun s => s.cloak.lock) h₂, congrArg (fun s => s.cloak.prevSettings) h₂⟩

theorem lock_eq : s'.cloak.lock = s.cloak.lock := by
  rw [h.cloak_after.1, h.applied_policyOnly.2]
  exact h.cloak_before.1

theorem prevSettings_eq : s'.cloak.prevSettings =
    if cloakAnswer presses = .allow then a1 else s.cloak.prevSettings := by
  rw [h.cloak_after.2, h.applied_policyOnly.2, h.cloak_before.2]

end SetStages

/-! ## Lock -/

/-- The state after a successful `cpu_spin_trylock`. -/
def Sys.locked (s : Sys) : Sys := { s with cloak := { s.cloak with lock := 1 } }

theorem cpuSpinTrylock_runs {s s' : Sys} {w : List Event} {ok : Bool} :
    Code.Runs cpuSpinTrylock s w ok s' ↔
      w = [] ∧ ((s.cloak.lock = 0 ∧ ok = true ∧ s' = s.locked) ∨
        (s.cloak.lock ≠ 0 ∧ ok = false ∧ s' = s)) := by
  rw [cpuSpinTrylock, Code.runs_get_bind, Code.runs_ite]
  by_cases hlock : s.cloak.lock = 0
  · rw [if_pos hlock, Code.runs_modify_bind, Code.runs_pure]
    simp [hlock, Sys.locked]
  · rw [if_neg hlock, Code.runs_pure]
    exact ⟨fun ⟨hw, hok, hs⟩ => ⟨hw, .inr ⟨hlock, hok, hs⟩⟩,
      fun ⟨hw, hs⟩ => hs.elim (fun hs => absurd hs.1 hlock) fun hs => ⟨hw, hs.2⟩⟩

theorem cpuSpinUnlock_runs {env : Env} {n : Nat} {s s' : Sys} {w : List Event} {u : Unit} :
    Code.Runs (cpuSpinUnlock env n) s w u s' ↔
      w = [] ∧ s' = s.unlocked ∧ (env.asserts = true → 0 < n) := by
  rw [cpuSpinUnlock, Code.runs_modify_bind, runs_kassert]

/-- `cloak_entry_set` with the lock free. -/
theorem cloakEntrySet_runs {env : Env} {t : DeviceTable} {presses : List Word} {args res : SmcArgs}
    {s s' : Sys} {w : List Event} (hlock : s.cloak.lock = 0)
    (h : Code.Runs (cloakEntrySet env t presses args) s w res s') :
    res = { args with a0 := opteeSmcReturnOk } ∧
      ∃ s₁, Nonempty (SetStages env t presses args.a1 s.locked w s₁) ∧ s' = s₁.unlocked := by
  obtain ⟨w₁, ok, s₁, w₂, h₁, h₂, rfl⟩ := Code.runs_bind.mp h
  obtain ⟨rfl, ⟨-, rfl, rfl⟩ | ⟨hne, -, -⟩⟩ := cpuSpinTrylock_runs.mp h₁
  swap
  · exact absurd hlock hne
  simp only [if_true] at h₂
  obtain ⟨w₃, err, s₃, v₃, h₃, k₃, rfl⟩ := Code.runs_bind.mp h₂
  obtain ⟨w₄, _, s₄, v₄, h₄, k₄, rfl⟩ := Code.runs_bind.mp k₃
  obtain ⟨rfl, rfl, rfl⟩ := Code.runs_pure.mp k₄
  obtain ⟨rfl, rfl, -⟩ := cpuSpinUnlock_runs.mp h₄
  obtain ⟨rfl, hst⟩ := cloakSetBody_stages h₃
  exact ⟨rfl, s₃, by simpa using hst, rfl⟩

/-- `cloak_entry_get` with the lock free. -/
theorem cloakEntryGet_runs {env : Env} {args res : SmcArgs} {s s' : Sys} {w : List Event}
    (hlock : s.cloak.lock = 0) (h : Code.Runs (cloakEntryGet env args) s w res s') :
    res = { args with a0 := opteeSmcReturnOk, a1 := s.cloak.prevSettings } ∧ w = [] ∧ s' = s := by
  obtain ⟨w₁, ok, s₁, w₂, h₁, h₂, rfl⟩ := Code.runs_bind.mp h
  obtain ⟨rfl, ⟨-, rfl, rfl⟩ | ⟨hne, -, -⟩⟩ := cpuSpinTrylock_runs.mp h₁
  swap
  · exact absurd hlock hne
  simp only [if_true, cloakGetBody] at h₂
  obtain ⟨w₃, args', s₃, v₃, h₃, k₃, rfl⟩ := Code.runs_bind.mp h₂
  rw [Code.runs_get_bind, Code.runs_pure] at h₃
  obtain ⟨rfl, rfl, rfl⟩ := h₃
  obtain ⟨w₄, _, s₄, v₄, h₄, k₄, rfl⟩ := Code.runs_bind.mp k₃
  obtain ⟨rfl, rfl, rfl⟩ := Code.runs_pure.mp k₄
  obtain ⟨rfl, rfl, -⟩ := cpuSpinUnlock_runs.mp h₄
  refine ⟨rfl, rfl, ?_⟩
  rw [Sys.unlocked, Sys.locked, ← hlock]

end SeCloak
