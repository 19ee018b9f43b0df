import SeCloak.Entry.EntryProps
import SeCloak.Kernel.BootProps
import SeCloak.Misc.Steps

/-!
# The flags after a sequence of settings

A confirmed `CLOAK_SET` enables all eight classes and disables the ones that are not allowed.
Classes share devices and ancestors, and the sweeps skip a device whose flag is already as asked
for; the result is still the same as from a fresh boot, because every flag that is false is
explained by a device of one of the eight classes (`Misc.Explained`), and so the first phase
always ends with every device enabled.
-/

namespace SeCloak
open Misc

/-! ## Calls -/

/-- An SMC with the keys that are pressed while it waits, and what it returns. -/
structure SmcCall where
  presses : List Word
  args : SmcArgs
  res : SmcArgs

/-- One completed call of `cloak_entry`. -/
def smcStep (env : Env) (t : DeviceTable) (s : Sys) (c : SmcCall) (s' : Sys) : Prop :=
  ∃ w, Code.Runs (cloakEntry env t c.presses c.args) s w c.res s'

/-- A `CLOAK_SET` that the user allows. -/
def SmcCall.Confirmed (c : SmcCall) : Prop :=
  c.args.a0 = opteeSmcCloakSet ∧ cloakAnswer c.presses = .allow

/-- A call of `cloak_entry` for `CLOAK_SET` with the lock free passes through the stages. -/
theorem smcStep_set {env : Env} {t : DeviceTable} {s s' : Sys} {c : SmcCall}
    (hlock : s.cloak.lock = 0) (hset : c.args.a0 = opteeSmcCloakSet) (h : smcStep env t s c s') :
    c.res = { c.args with a0 := opteeSmcReturnOk } ∧ ∃ w s₁,
      Nonempty (SetStages env t c.presses c.args.a1 s.locked w s₁) ∧ s' = s₁.unlocked := by
  obtain ⟨w, h⟩ := h
  rw [cloakEntry, if_pos hset] at h
  obtain ⟨hres, s₁, hst, hs'⟩ := cloakEntrySet_runs hlock h
  exact ⟨hres, w, s₁, hst, hs'⟩

/-- What a call that is no `CLOAK_SET` does with the lock free. -/
theorem smcStep_other {env : Env} {t : DeviceTable} {s s' : Sys} {c : SmcCall}
    (hlock : s.cloak.lock = 0) (hset : c.args.a0 ≠ opteeSmcCloakSet) (h : smcStep env t s c s') :
    s' = s ∧ c.res = if c.args.a1 = opteeSmcCloakGet
      then { c.args with a0 := opteeSmcReturnOk, a1 := s.cloak.prevSettings }
      else { c.args with a0 := opteeSmcReturnEbadcmd } := by
  obtain ⟨w, h⟩ := h
  rw [cloakEntry, if_neg hset, Code.runs_ite] at h
  by_cases hget : c.args.a1 = opteeSmcCloakGet
  · rw [if_pos hget] at h ⊢
    obtain ⟨hres, -, hs'⟩ := cloakEntryGet_runs hlock h
    exact ⟨hs', hres⟩
  · rw [if_neg hget] at h ⊢
    obtain ⟨-, hres, hs'⟩ := Code.runs_pure.mp h
    exact ⟨hs', hres⟩

/-! ## Flags -/

/-- The devices of a list of classes, in the order in which they are visited. -/
def DeviceTable.classDevices (t : DeviceTable) (names : List CString) : List Device :=
  names.flatMap t.carriers

theorem enableClasses_enabled {env : Env} {t : DeviceTable} {classes : List (CString × Bool)}
    {s s' : Sys} {w : List Event} {u : Unit}
    (h : Code.Runs (Code.forEach (fun c => dtEnableClass env t c.1 true) classes) s w u s') :
    s'.enabled = sweep Device.chain true (t.classDevices (classes.map Prod.fst)) s.enabled := by
  induction classes generalizing s w with
  | nil =>
    obtain ⟨-, rfl⟩ := Code.runs_forEach_nil.mp h
    rfl
  | cons c classes ih =>
    obtain ⟨w₁, s₁, w₂, h₁, h₂, rfl⟩ := Code.runs_forEach_cons.mp h
    rw [ih h₂, dtEnableClass_enabled h₁]
    simp only [DeviceTable.classDevices, List.map_cons, List.flatMap_cons]
    rw [sweep_append]

theorem disableClasses_enabled {env : Env} {t : DeviceTable} {classes : List (CString × Bool)}
    {s s' : Sys} {w : List Event} {u : Unit} (h : Code.Runs (Code.forEach
      (fun c => Code.runIf (c.2 = false) (dtEnableClass env t c.1 false)) classes) s w u s') :
    s'.enabled = sweep Device.chain false
      (t.classDevices ((classes.filter (·.2 = false)).map Prod.fst)) s.enabled := by
  induction classes generalizing s w with
  | nil =>
    obtain ⟨-, rfl⟩ := Code.runs_forEach_nil.mp h
    rfl
  | cons c classes ih =>
    obtain ⟨w₁, s₁, w₂, h₁, h₂, rfl⟩ := Code.runs_forEach_cons.mp h
    rw [ih h₂]
    rcases Code.runs_runIf.mp h₁ with ⟨hc, h₁⟩ | ⟨hc, -, rfl⟩
    · rw [dtEnableClass_enabled h₁, List.filter_cons, if_pos (by simpa using hc)]
      simp only [DeviceTable.classDevices, List.map_cons, List.flatMap_cons]
      rw [sweep_append]
    · rw [List.filter_cons, if_neg (by simpa using hc)]

/-- The names of the eight classes, and of those that the settings do not allow. -/
def cloakNames : List CString := cloakClasses.map (·.name)

def deniedNames (a1 : Word) : List CString :=
  (cloakClasses.filter fun c => c.allow a1 = false).map (·.name)

theorem deniedNames_subset {a1 : Word} {t : DeviceTable} :
    ∀ d ∈ t.classDevices (deniedNames a1), d ∈ t.classDevices cloakNames := by
  intro d hd
  obtain ⟨name, hname, hd⟩ := List.mem_flatMap.mp hd
  obtain ⟨c, hc, rfl⟩ := List.mem_map.mp hname
  exact List.mem_flatMap.mpr ⟨c.name, List.mem_map.mpr ⟨c, (List.mem_filter.mp hc).1, rfl⟩, hd⟩

theorem mem_deniedDevices {a1 : Word} {t : DeviceTable} {d : Device} :
    d ∈ t.classDevices (deniedNames a1) ↔
      d ∈ t.devices ∧ ∃ c ∈ cloakClasses, c.allow a1 = false ∧ c.name ∈ d.info.classes := by
  simp only [DeviceTable.classDevices, deniedNames, List.mem_flatMap, List.mem_map,
    List.mem_filter, decide_eq_true_eq, mem_carriers]
  constructor
  · rintro ⟨_, ⟨c, ⟨hc, hdeny⟩, rfl⟩, hd, hname⟩
    exact ⟨hd, c, hc, hdeny, hname⟩
  · rintro ⟨hd, c, hc, hdeny, hname⟩
    exact ⟨c.name, ⟨c, ⟨hc, hdeny⟩, rfl⟩, hd, hname⟩

/-- The flags before a call come from earlier settings. -/
def Sys.Explained (s : Sys) (t : DeviceTable) : Prop :=
  Misc.Explained Device.chain true (t.classDevices cloakNames) s.enabled

theorem enableClasses_all {env : Env} {t : DeviceTable} {a1 : Word} {s s' : Sys} {w : List Event}
    {u : Unit} (hs : s.Explained t) (h : Code.Runs
      (Code.forEach (fun c => dtEnableClass env t c.1 true) (cloakVerdicts a1)) s w u s') (d : Device) :
    s'.enabled d = true := by
  have hnames : (cloakVerdicts a1).map Prod.fst = cloakNames := by
    simp [cloakVerdicts, cloakNames]
  rw [enableClasses_enabled h, hnames]
  exact sweep_explained chain_closed hs d

/-- Applying settings to flags that come from earlier settings: all devices are enabled in
between, and then the chains of the devices of the denied classes are disabled. -/
theorem cloakApply_enabled {env : Env} {t : DeviceTable} {a1 : Word} {s s' : Sys} {w : List Event}
    {u : Unit} (hs : s.Explained t)
    (h : Code.Runs (cloakApply env t (cloakVerdicts a1)) s w u s') :
    (∀ d, s'.enabled d = false ↔ ∃ D ∈ t.classDevices (deniedNames a1), d ∈ D.chain) ∧
      s'.Explained t := by
  obtain ⟨w₁, _, s₁, w₂, h₁, h₂, rfl⟩ := Code.runs_bind.mp h
  have hdenied : ((cloakVerdicts a1).filter (·.2 = false)).map Prod.fst = deniedNames a1 := by
    simp [cloakVerdicts, deniedNames, List.filter_map, Function.comp_def]
  have hall := enableClasses_all hs h₁
  have hen₂ := disableClasses_enabled h₂
  rw [hdenied] at hen₂
  refine ⟨fun d => ?_, ?_⟩
  · rw [hen₂]
    exact sweep_uniform chain_closed hall d
  · rw [Sys.Explained, hen₂]
    exact explained_of_uniform chain_closed hall deniedNames_subset

/-- One confirmed call. -/
theorem smcStep_confirmed {env : Env} {t : DeviceTable} {s s' : Sys} {c : SmcCall}
    (hlock : s.cloak.lock = 0) (hs : s.Explained t) (hc : c.Confirmed)
    (h : smcStep env t s c s') :
    (∀ d, s'.enabled d = false ↔ ∃ D ∈ t.classDevices (deniedNames c.args.a1), d ∈ D.chain) ∧
      s'.cloak.lock = 0 ∧ s'.Explained t := by
  obtain ⟨-, w, s₁, ⟨st⟩, rfl⟩ := smcStep_set hlock hc.1 h
  have happly := st.apply
  rw [if_pos hc.2] at happly
  obtain ⟨sP, hrun, hsP⟩ := happly
  have hbefore : st.sAnswer.enabled = s.enabled := st.enabled_before
  have hafter : s₁.unlocked.enabled = sP.enabled := by
    change s₁.enabled = sP.enabled
    rw [st.enabled_after, hsP]
  have hexpl : st.sAnswer.Explained t := by
    rw [Sys.Explained, hbefore]
    exact hs
  obtain ⟨hiff, hexpl'⟩ := cloakApply_enabled hexpl hrun
  refine ⟨fun d => ?_, rfl, ?_⟩
  · rw [hafter]
    exact hiff d
  · rw [Sys.Explained, hafter]
    exact hexpl'

theorem explained_of_all_enabled {s : Sys} {t : DeviceTable} (h : ∀ d, s.enabled d = true) :
    s.Explained t :=
  fun d hd => absurd (h d) hd

/-- After every sequence of confirmed settings that starts with all devices enabled, a device is
disabled exactly if it is on the chain of a device that carries a class that the last settings do
not allow. -/
theorem disabled_iff_denied {env : Env} {t : DeviceTable} {s₀ s : Sys} {calls : List SmcCall}
    {last : SmcCall} (hboot : ∀ d, s₀.enabled d = true) (hlock : s₀.cloak.lock = 0)
    (hconf : ∀ c ∈ calls ++ [last], c.Confirmed)
    (h : Steps (smcStep env t) s₀ (calls ++ [last]) s) (d : Device) :
    s.enabled d = false ↔ ∃ D ∈ t.devices,
      (∃ c ∈ cloakClasses, c.allow last.args.a1 = false ∧ c.name ∈ D.info.classes) ∧
        d ∈ D.chain := by
  obtain ⟨s₁, hcalls, hlast⟩ := steps_snoc.mp h
  have hinv : s₁.cloak.lock = 0 ∧ s₁.Explained t := by
    refine hcalls.invariant (I := fun s => s.cloak.lock = 0 ∧ s.Explained t) ?_
      ⟨hlock, explained_of_all_enabled hboot⟩
    intro c hc s s' hstep ⟨hl, he⟩
    exact (smcStep_confirmed hl he (hconf c (List.mem_append_left _ hc)) hstep).2
  obtain ⟨hiff, -⟩ := smcStep_confirmed hinv.1 hinv.2 (hconf last (by simp)) hlast
  rw [hiff]
  simp only [mem_deniedDevices, and_assoc]

/-- Settings that allow no class, confirmed. -/
def Board.cloakAll : SmcCall :=
  ⟨[keyHomepage], ⟨opteeSmcCloakSet, 0, 0, 0, 0, 0, 0, 0⟩, ⟨opteeSmcReturnOk, 0, 0, 0, 0, 0, 0, 0⟩⟩

/-- The state after a call. -/
def SmcCall.after (c : SmcCall) (env : Env) (t : DeviceTable) (s : Sys) : Sys :=
  (cloakEntry env t c.presses c.args).after s

/-- The log of a call. -/
def SmcCall.log (c : SmcCall) (env : Env) (t : DeviceTable) (s : Sys) : List Event :=
  (cloakEntry env t c.presses c.args s).events

theorem runs_after_set {env : Env} {t : DeviceTable} {c : SmcCall} {s : Sys}
    (hlock : s.cloak.lock = 0) (hset : c.args.a0 = opteeSmcCloakSet)
    (hres : c.res = { c.args with a0 := opteeSmcReturnOk })
    (h : (cloakEntry env t c.presses c.args).succeeds s = true) :
    Code.Runs (cloakEntry env t c.presses c.args) s (c.log env t s) c.res (c.after env t s) := by
  obtain ⟨res, hrun⟩ := Code.runs_after h
  have hset' := hrun
  rw [cloakEntry, if_pos hset] at hset'
  obtain ⟨hres', -⟩ := cloakEntrySet_runs hlock hset'
  rw [← hres] at hres'
  rw [hres'] at hrun
  exact hrun

/-- The board after such settings. -/
def Board.cloaked (env : Env) : Sys := Board.cloakAll.after env Board.table (Board.booted env 0)

theorem Board.cloakAll_confirmed : Board.cloakAll.Confirmed := ⟨rfl, rfl⟩

theorem Board.step_cloaked : smcStep imx6 Board.table (Board.booted imx6 0) Board.cloakAll
    (Board.cloaked imx6) := ⟨_, runs_after_set Board.booted_ok.lock rfl rfl (by decide +kernel)⟩

theorem disabled_iff_denied_board :
    (∀ d, (Board.booted imx6 0).enabled d = true) ∧ Board.cloakAll.Confirmed ∧
      Steps (smcStep imx6 Board.table) (Board.booted imx6 0) ([] ++ [Board.cloakAll])
        (Board.cloaked imx6) ∧
      ((Board.cloaked imx6).enabled Board.wlan = false ↔ ∃ D ∈ Board.table.devices,
        (∃ c ∈ cloakClasses, c.allow 0 = false ∧ c.name ∈ D.info.classes) ∧
          Board.wlan ∈ D.chain) := by
  have hboot := Board.booted_ok
  have hsteps : Steps (smcStep imx6 Board.table) (Board.booted imx6 0) ([] ++ [Board.cloakAll])
      (Board.cloaked imx6) := .cons Board.step_cloaked (.nil _)
  have hconf : ∀ c ∈ [] ++ [Board.cloakAll], c.Confirmed := by
    intro c hc
    rw [List.mem_singleton.mp hc]
    exact Board.cloakAll_confirmed
  exact ⟨hboot.enabled, Board.cloakAll_confirmed, hsteps,
    disabled_iff_denied hboot.enabled hboot.lock hconf hsteps Board.wlan⟩

end SeCloak
