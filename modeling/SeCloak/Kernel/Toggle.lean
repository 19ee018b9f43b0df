import SeCloak.Kernel.BootProps
import SeCloak.Misc.Steps

/-!
# Toggling classes in any order

The counters of the CSLs remember how many devices rely on them, the flags of the devices and the
interrupt lines do not. Disabling a class keeps every disabled device cloaked. Enabling a class
keeps it exactly as long as no other disabled device relies on one of the devices that it enables,
through a common ancestor or through a common line; this is what the settings avoid by enabling
all classes before they disable any (`entry.c:259-263`).
-/

namespace SeCloak
open Misc

/-- Every disabled device is cloaked: the first ancestor that can be protected is disabled with
its CSLs protected, and the lines of the device are disabled and secured. -/
structure Sys.Cloaking (s : Sys) : Prop where
  guards : ∀ d p, s.enabled d = false → d.guard = some p → s.enabled p = false ∧
    ∀ c ∈ p.info.csu, 0 < s.csu.counts c.toNat ∧ s.csu.field c.toNat = 0x33
  lines : ∀ d, s.enabled d = false → ∀ l ∈ d.lines,
    s.lineEnabled l = false ∧ s.lineSecured l = true

/-- A call of `dt_enable_class` that returned, with the states around it. -/
structure ClassCall where
  before : Sys
  name : CString
  enable : Bool
  after : Sys

def classStep (env : Env) (t : DeviceTable) (s : Sys) (c : ClassCall) (s' : Sys) : Prop :=
  c.before = s ∧ c.after = s' ∧ ∃ w, Code.Runs (dtEnableClass env t c.name c.enable) s w () s'

/-- The devices that `dt_enable_class` visits to give them the flag `b`. -/
def Reached (t : DeviceTable) (name : CString) (b : Bool) (s : Sys) (x : Device) : Prop :=
  ∃ d ∈ t.carriers name, s.enabled d ≠ b ∧ x ∈ d.chain

/-- No device that stays disabled relies on one that the call enables: its first ancestor that can
be protected is not reached, and none of its lines is a line of a device that gets enabled. -/
def Separate (t : DeviceTable) (name : CString) (s : Sys) : Prop :=
  ∀ d, s.enabled d = false → ¬ Reached t name true s d →
    (∀ p, d.guard = some p → ¬ Reached t name true s p) ∧
    ∀ x, s.enabled x = false → Reached t name true s x → ∀ l ∈ d.lines, l ∉ x.lines

def ClassCall.Separate (t : DeviceTable) (c : ClassCall) : Prop :=
  c.enable = true → SeCloak.Separate t c.name c.before

/-! ## One call -/

section Call

variable {env : Env} {t : DeviceTable} {name : CString} {s s' : Sys} {w : List Event}

theorem dtEnableClass_enabled_apply {b : Bool}
    (h : Code.Runs (dtEnableClass env t name b) s w () s') (x : Device) :
    (Reached t name b s x → s'.enabled x = b) ∧
      (¬ Reached t name b s x → s'.enabled x = s.enabled x) := by
  rw [dtEnableClass_enabled h, sweep_apply chain_closed]
  exact ⟨fun hx => if_pos hx, fun hx => if_neg hx⟩

/-- With a device its whole chain is reached. -/
theorem Reached.chain {b : Bool} {x y : Device} (h : Reached t name b s x) (hy : y ∈ x.chain) :
    Reached t name b s y := by
  obtain ⟨d, hd, hne, hx⟩ := h
  exact ⟨d, hd, hne, chain_closed.trans hx y hy⟩

/-- Where the accounts balance, it is enough that the guard is disabled. -/
theorem cloaking_of_flags {X : List Int} (hb : Balanced env True X s)
    (hguards : ∀ d p, s.enabled d = false → d.guard = some p → s.enabled p = false)
    (hlines : ∀ d, s.enabled d = false → ∀ l ∈ d.lines, s.line l = (false, true)) :
    s.Cloaking where
  guards d p hd hp := by
    have hoff := hguards d p hd hp
    obtain ⟨hcsl, hfield⟩ := hb.shielded (guard_canProtect hp) hoff
    exact ⟨hoff, fun c hc => ⟨hcsl c hc, hfield trivial c hc⟩⟩
  lines d hd l hl := Prod.mk.inj (hlines d hd l hl)

theorem Sys.Cloaking.line (h : s.Cloaking) {d : Device} (hd : s.enabled d = false) {l : Line}
    (hl : l ∈ d.lines) : s.line l = (false, true) := by
  obtain ⟨hen, hsec⟩ := h.lines d hd l hl
  rw [Sys.line, hen, hsec]

/-- Disabling a class keeps every disabled device cloaked. -/
theorem dtDisableClass_cloaking {X : List Int}
    (h : Code.Runs (dtEnableClass env t name false) s w () s') (hb : Balanced env True X s)
    (hs : s.Cloaking) : s'.Cloaking := by
  have hsw := dtEnableClass_switched h
  refine cloaking_of_flags (dtEnableClass_balanced h hb) (fun d p hd hp => ?_)
    fun d hd l hl => ?_
  · by_cases hreach : Reached t name false s d
    · exact (dtEnableClass_enabled_apply h p).1 (hreach.chain (guard_mem_chain hp))
    · rw [(dtEnableClass_enabled_apply h d).2 hreach] at hd
      exact hsw.flags p (hs.guards d p hd hp).1
  · by_cases hwas : s.enabled d = false
    · rcases hsw.kept l with hk | ⟨hk, -⟩
      · rw [hk, hs.line hwas hl]
      · exact hk
    · exact hsw.switched d hwas hd l hl

/-- Enabling a class keeps every disabled device cloaked exactly if none of them relies on a device
that it enables. -/
theorem dtEnableClass_cloaking_iff {X : List Int}
    (h : Code.Runs (dtEnableClass env t name true) s w () s') (hb : Balanced env True X s)
    (hs : s.Cloaking) : s'.Cloaking ↔ Separate t name s := by
  have hsw := dtEnableClass_switched h
  have hreach := fun x => (dtEnableClass_enabled_apply h x).1
  have hkeep := fun x => (dtEnableClass_enabled_apply h x).2
  constructor
  · intro hs' d hd hnot
    have hd' : s'.enabled d = false := by rw [hkeep d hnot, hd]
    refine ⟨fun p hp hrp => ?_, fun x hx hrx l hl hlx => ?_⟩
    · have hoff := (hs'.guards d p hd' hp).1
      rw [hreach p hrp] at hoff
      cases hoff
    · -- the line was enabled for `x`, but a line of `d` is disabled
      have hon := hsw.switched x (by simp [hx]) (hreach x hrx) l hlx
      rw [hs'.line hd' hl] at hon
      cases hon
  · intro hsep
    have hstay : ∀ d, s'.enabled d = false → s.enabled d = false ∧ ¬ Reached t name true s d := by
      intro d hd
      have hnot : ¬ Reached t name true s d := by
        intro hr
        rw [hreach d hr] at hd
        cases hd
      exact ⟨hkeep d hnot ▸ hd, hnot⟩
    refine cloaking_of_flags (dtEnableClass_balanced h hb) (fun d p hd hp => ?_)
      fun d hd l hl => ?_
    · obtain ⟨hoff, hnot⟩ := hstay d hd
      rw [hkeep p ((hsep d hoff hnot).1 p hp)]
      exact (hs.guards d p hoff hp).1
    · obtain ⟨hoff, hnot⟩ := hstay d hd
      rcases hsw.kept l with hk | ⟨-, x, hx, hx', hlx⟩
      · rw [hk, hs.line hoff hl]
      · have hxoff : s.enabled x = false := by simpa using hx
        have hrx : Reached t name true s x := by
          by_contra hnx
          rw [hkeep x hnx, hxoff] at hx'
          cases hx'
        exact absurd hlx ((hsep d hoff hnot).2 x hxoff hrx l hl)

end Call

theorem classStep_cloaking_iff {env : Env} {t : DeviceTable} {s s' : Sys} {c : ClassCall}
    {X : List Int} (h : classStep env t s c s') (hb : Balanced env True X s) (hs : s.Cloaking) :
    c.after.Cloaking ↔ c.Separate t := by
  obtain ⟨rfl, rfl, w, hrun⟩ := h
  unfold ClassCall.Separate
  cases henable : c.enable with
  | false =>
    rw [henable] at hrun
    simp [dtDisableClass_cloaking hrun hb hs]
  | true =>
    rw [henable] at hrun
    rw [dtEnableClass_cloaking_iff hrun hb hs]
    simp

/-! ## Runs -/

/-- In every sequence of calls from boot, all disabled devices are cloaked after every call exactly
if no call enables a device that another disabled device relies on. -/
theorem toggles_cloaked_iff {env : Env} {t : DeviceTable} {s₀ s : Sys} {calls : List ClassCall}
    (hboot : Booted env s₀) (h : Steps (classStep env t) s₀ calls s) :
    (∀ c ∈ calls, c.after.Cloaking) ↔ ∀ c ∈ calls, c.Separate t := by
  have hs₀ : s₀.Cloaking := by
    refine ⟨fun d _ hd => ?_, fun d hd => ?_⟩
    · rw [hboot.enabled d] at hd
      cases hd
    · rw [hboot.enabled d] at hd
      cases hd
  have hb := hboot.settled.balanced
  generalize [] ++ s₀.portCsls = X at hb
  clear hboot
  induction h with
  | nil s => simp
  | @cons s s₁ s' c calls first rest ih =>
    have hiff := classStep_cloaking_iff first hb hs₀
    obtain ⟨rfl, rfl, w, hrun⟩ := first
    have hb₁ := dtEnableClass_balanced hrun hb
    rw [List.forall_mem_cons, List.forall_mem_cons]
    constructor
    · rintro ⟨hc, hcalls⟩
      exact ⟨hiff.mp hc, (ih hc hb₁).mp hcalls⟩
    · rintro ⟨hc, hcalls⟩
      have hc' := hiff.mpr hc
      exact ⟨hc', (ih hc' hb₁).mpr hcalls⟩

namespace Board

/-- A bus that can be protected, with a camera and a microphone that cannot. -/
def hub : Device := onBus 7 0x021F8000 0x4000 { node := 7, resourceType := .mem, csu := [20] }

def camera : Device :=
  .child { node := 8, resourceType := .other, irqs := [⟨⟨.gic, 60⟩, 4⟩]
           classes := [ascii ['c', 'a', 'm', 'e', 'r', 'a']] } hub

def mic : Device :=
  .child { node := 9, resourceType := .other, irqs := [⟨⟨.gic, 60⟩, 4⟩]
           classes := [ascii ['a', 'u', 'd', 'i', 'o', '-', 'i', 'n']] } hub

def hubTable : DeviceTable where
  bucket n := if n = 0 then [soc, gic, hub, camera, mic] else []

/-- The state after a call, and the call itself. -/
def toggled (s : Sys) (dev : Device) (enable : Bool) : Sys :=
  (dtEnableClass imx6Release hubTable (dev.info.classes.headD []) enable).after s

def toggle (s : Sys) (dev : Device) (enable : Bool) : ClassCall :=
  ⟨s, dev.info.classes.headD [], enable, toggled s dev enable⟩

def noCamera : Sys := toggled (booted imx6Release 0) camera false
def noCameraNoMic : Sys := toggled noCamera mic false
def cameraAgain : Sys := toggled noCameraNoMic camera true

theorem step_toggle {s : Sys} {dev : Device} {enable : Bool}
    (h : (dtEnableClass imx6Release hubTable (dev.info.classes.headD []) enable).succeeds s = true) :
    classStep imx6Release hubTable s (toggle s dev enable) (toggled s dev enable) := by
  obtain ⟨_, hrun⟩ := Code.runs_after h
  exact ⟨rfl, rfl, _, hrun⟩

theorem step_noCamera : classStep imx6Release hubTable (booted imx6Release 0)
    (toggle (booted imx6Release 0) camera false) noCamera := step_toggle (by decide +kernel)

theorem step_noMic : classStep imx6Release hubTable noCamera (toggle noCamera mic false)
    noCameraNoMic := step_toggle (by decide +kernel)

end Board

theorem toggles_cloaked_camera :
    Board.noCamera.enabled Board.camera = false ∧
      ((∀ c ∈ [Board.toggle (Board.booted imx6Release 0) Board.camera false,
          Board.toggle Board.noCamera Board.mic false], c.after.Cloaking) ↔
        ∀ c ∈ [Board.toggle (Board.booted imx6Release 0) Board.camera false,
          Board.toggle Board.noCamera Board.mic false], c.Separate Board.hubTable) :=
  ⟨by decide +kernel, toggles_cloaked_iff Board.booted_release_ok
    (.cons Board.step_noCamera (.cons Board.step_noMic (.nil _)))⟩

/-- The camera and the microphone are disabled, then the camera is enabled again: the microphone is
disabled, but the bus it is on is enabled, the CSL of the bus is open, and so is its line. -/
theorem toggles_uncloak_mic :
    Steps (classStep imx6Release Board.hubTable) (Board.booted imx6Release 0)
        [Board.toggle (Board.booted imx6Release 0) Board.camera false,
          Board.toggle Board.noCamera Board.mic false,
          Board.toggle Board.noCameraNoMic Board.camera true] Board.cameraAgain ∧
      Booted imx6Release (Board.booted imx6Release 0) ∧ Board.mic ∈ Board.hubTable.devices ∧
      Board.mic.guard = some Board.hub ∧ Board.cameraAgain.enabled Board.mic = false ∧
      Board.cameraAgain.enabled Board.hub = true ∧ Board.cameraAgain.csu.field 20 = 0xFF ∧
      Board.cameraAgain.lineEnabled (.gic 60) = true ∧ ¬ Board.cameraAgain.Cloaking := by
  have hagain : classStep imx6Release Board.hubTable Board.noCameraNoMic
      (Board.toggle Board.noCameraNoMic Board.camera true) Board.cameraAgain :=
    Board.step_toggle (by decide +kernel)
  have hguard : Board.mic.guard = some Board.hub := by decide +kernel
  have hmic : Board.cameraAgain.enabled Board.mic = false := by decide +kernel
  have hhub : Board.cameraAgain.enabled Board.hub = true := by decide +kernel
  refine ⟨.cons Board.step_noCamera (.cons Board.step_noMic (.cons hagain (.nil _))),
    Board.booted_release_ok, by decide +kernel, hguard, hmic, hhub, by decide +kernel,
    by decide +kernel, fun hcloak => ?_⟩
  have hoff := (hcloak.guards Board.mic Board.hub hmic hguard).1
  rw [hhub] at hoff
  cases hoff

end SeCloak
