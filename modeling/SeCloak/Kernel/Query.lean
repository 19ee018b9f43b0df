import SeCloak.Kernel.Toggle

/-!
# Asking for a class

`dt_is_class_enabled` looks at the first device that carries the class and returns its flag. The
answer stands for all carriers as long as no call of `dt_enable_class` leaves the first carrier
enabled and another one disabled.
-/

namespace SeCloak
open Misc

/-- The answer for every class: some device carries it, and all that do are enabled. -/
def QueriesRight (t : DeviceTable) (s : Sys) : Prop :=
  ∀ name, dtIsClassEnabled t name s = true ↔
    (∃ d ∈ t.devices, deviceHasClass d name = true) ∧
      ∀ d ∈ t.devices, deviceHasClass d name = true → s.enabled d = true

/-- A call keeps the carriers of every class with the first of them. If it reaches the first carrier
to enable it, it reaches every carrier that is not enabled yet; if it disables a carrier of a class
whose first carrier is enabled, it reaches the first one too. -/
def ClassCall.KeepsWithFirst (t : DeviceTable) (c : ClassCall) : Prop :=
  ∀ name first, (t.carriers name).head? = some first →
    if c.enable then Reached t c.name true c.before first →
      ∀ d ∈ t.carriers name, c.before.enabled d = true ∨ Reached t c.name true c.before d
    else c.before.enabled first = true →
      ∀ d ∈ t.carriers name, Reached t c.name false c.before d → Reached t c.name false c.before first

section Query

variable {env : Env} {t : DeviceTable} {s s' : Sys} {c : ClassCall}

theorem dtIsClassEnabled_eq (t : DeviceTable) (name : CString) (s : Sys) :
    dtIsClassEnabled t name s = ((t.carriers name).head?.map s.enabled).getD false := by
  rw [dtIsClassEnabled, DeviceTable.carriers, List.head?_filter]
  cases t.devices.find? (deviceHasClass · name) <;> rfl

/-- The answers are right when all carriers are enabled if the first one is. -/
theorem queriesRight_iff : QueriesRight t s ↔
    ∀ name first, (t.carriers name).head? = some first → s.enabled first = true →
      ∀ d ∈ t.carriers name, s.enabled d = true := by
  constructor
  · intro h name first hfirst hon d hd
    have hanswer : dtIsClassEnabled t name s = true := by
      rw [dtIsClassEnabled_eq, hfirst]
      exact hon
    obtain ⟨hmem, hclass⟩ := List.mem_filter.mp hd
    exact ((h name).mp hanswer).2 d hmem hclass
  · intro h name
    rw [dtIsClassEnabled_eq]
    cases hfirst : (t.carriers name).head? with
    | none =>
      have hnone := List.head?_eq_none_iff.mp hfirst
      refine ⟨fun hfalse => absurd hfalse (by simp), fun hall => ?_⟩
      obtain ⟨⟨d, hmem, hclass⟩, -⟩ := hall
      have hd : d ∈ t.carriers name := List.mem_filter.mpr ⟨hmem, hclass⟩
      rw [hnone] at hd
      cases hd
    | some first =>
      have hmem := List.mem_filter.mp (List.mem_of_head? hfirst)
      constructor
      · intro hon
        refine ⟨⟨first, hmem⟩, fun d hd hclass => ?_⟩
        exact h name first hfirst hon d (List.mem_filter.mpr ⟨hd, hclass⟩)
      · intro hall
        exact hall.2 first hmem.1 hmem.2

/-- A call that enables a class keeps the answers right if and only if no first carrier is enabled
alone. -/
theorem enable_queriesRight_iff {name : CString} {w : List Event}
    (h : Code.Runs (dtEnableClass env t name true) s w () s') (hs : QueriesRight t s) :
    QueriesRight t s' ↔ ∀ other first, (t.carriers other).head? = some first →
      Reached t name true s first →
        ∀ d ∈ t.carriers other, s.enabled d = true ∨ Reached t name true s d := by
  have hflags := dtEnableClass_enabled_apply h
  have hon : ∀ x, s'.enabled x = true ↔ s.enabled x = true ∨ Reached t name true s x := by
    intro x
    by_cases hx : Reached t name true s x
    · simp [(hflags x).1 hx, hx]
    · simp [(hflags x).2 hx, hx]
  rw [queriesRight_iff]
  constructor
  · intro hright other first hfirst hreach d hd
    exact (hon d).mp (hright other first hfirst ((hon first).mpr (Or.inr hreach)) d hd)
  · intro hkeep other first hfirst hfon d hd
    rcases (hon first).mp hfon with hwas | hreach
    · exact (hon d).mpr (Or.inl (queriesRight_iff.mp hs other first hfirst hwas d hd))
    · exact (hon d).mpr (hkeep other first hfirst hreach d hd)

/-- A call that disables a class keeps the answers right if and only if it never disables a carrier
without the first one. -/
theorem disable_queriesRight_iff {name : CString} {w : List Event}
    (h : Code.Runs (dtEnableClass env t name false) s w () s') (hs : QueriesRight t s) :
    QueriesRight t s' ↔ ∀ other first, (t.carriers other).head? = some first →
      s.enabled first = true → ∀ d ∈ t.carriers other, Reached t name false s d →
        Reached t name false s first := by
  have hflags := dtEnableClass_enabled_apply h
  have hon : ∀ x, s'.enabled x = true ↔ s.enabled x = true ∧ ¬ Reached t name false s x := by
    intro x
    by_cases hx : Reached t name false s x
    · simp [(hflags x).1 hx, hx]
    · simp [(hflags x).2 hx, hx]
  rw [queriesRight_iff]
  constructor
  · intro hright other first hfirst hwas d hd hreach
    by_contra hnot
    have hdon := (hon d).mp (hright other first hfirst ((hon first).mpr ⟨hwas, hnot⟩) d hd)
    exact hdon.2 hreach
  · intro hkeep other first hfirst hfon d hd
    obtain ⟨hwas, hnot⟩ := (hon first).mp hfon
    refine (hon d).mpr ⟨queriesRight_iff.mp hs other first hfirst hwas d hd, fun hreach => ?_⟩
    exact hnot (hkeep other first hfirst hwas d hd hreach)

/-- A call keeps the answers right if and only if it keeps the carriers with the first. -/
theorem classStep_query_iff (h : classStep env t s c s') (hs : QueriesRight t s) :
    QueriesRight t c.after ↔ c.KeepsWithFirst t := by
  obtain ⟨rfl, rfl, w, hrun⟩ := h
  unfold ClassCall.KeepsWithFirst
  cases henable : c.enable with
  | true =>
    rw [henable] at hrun
    simpa using enable_queriesRight_iff hrun hs
  | false =>
    rw [henable] at hrun
    simpa using disable_queriesRight_iff hrun hs

/-- A call that returns is a step. -/
theorem classStep_after {name : CString} {enable : Bool}
    (h : (dtEnableClass env t name enable).succeeds s = true) :
    classStep env t s ⟨s, name, enable, (dtEnableClass env t name enable).after s⟩
      ((dtEnableClass env t name enable).after s) := by
  obtain ⟨_, hrun⟩ := Code.runs_after h
  exact ⟨rfl, rfl, _, hrun⟩

end Query

/-- In every sequence of calls from boot, every class is answered right after every call exactly if
each call keeps the carriers of a class with the first of them. -/
theorem queries_right_iff {env : Env} {t : DeviceTable} {s₀ s : Sys} {calls : List ClassCall}
    (hboot : Booted env s₀) (h : Steps (classStep env t) s₀ calls s) :
    (∀ c ∈ calls, QueriesRight t c.after) ↔ ∀ c ∈ calls, c.KeepsWithFirst t := by
  have hs₀ : QueriesRight t s₀ :=
    queriesRight_iff.mpr fun _ _ _ _ d _ => hboot.enabled d
  clear hboot
  induction h with
  | nil s => simp
  | @cons s s₁ s' c calls first rest ih =>
    have hiff := classStep_query_iff first hs₀
    obtain ⟨rfl, rfl, -⟩ := first
    rw [List.forall_mem_cons, List.forall_mem_cons]
    constructor
    · rintro ⟨hc, hcalls⟩
      exact ⟨hiff.mp hc, (ih hc).mp hcalls⟩
    · rintro ⟨hc, hcalls⟩
      have hc' := hiff.mpr hc
      exact ⟨hc', (ih hc').mpr hcalls⟩

theorem queries_right_camera :
    ((∀ c ∈ [Board.toggle (Board.booted imx6Release 0) Board.camera false],
        QueriesRight Board.hubTable c.after) ↔
      ∀ c ∈ [Board.toggle (Board.booted imx6Release 0) Board.camera false],
        c.KeepsWithFirst Board.hubTable) :=
  queries_right_iff Board.booted_release_ok (.cons Board.step_noCamera (.nil _))

namespace Board

/-- A camera with a microphone, behind the camera in the table. -/
def webcam : Device :=
  onBus 10 0x02184000 0x200 { node := 10, resourceType := .mem, csu := [21], classes :=
    [ascii ['a', 'u', 'd', 'i', 'o', '-', 'i', 'n'], ascii ['c', 'a', 'm', 'e', 'r', 'a']] }

def webcamTable : DeviceTable where
  bucket n := if n = 0 then [soc, gic, hub, camera, mic, webcam] else []

def noAudio : Sys :=
  (dtEnableClass imx6Release webcamTable (mic.info.classes.headD []) false).after
    (booted imx6Release 0)

end Board

/-- The audio devices are disabled, and with them the second camera: the class of the cameras is
still reported as enabled. -/
theorem query_second_camera :
    Steps (classStep imx6Release Board.webcamTable) (Board.booted imx6Release 0)
        [⟨Board.booted imx6Release 0, Board.mic.info.classes.headD [], false, Board.noAudio⟩]
        Board.noAudio ∧
      Booted imx6Release (Board.booted imx6Release 0) ∧ ¬ QueriesRight Board.webcamTable Board.noAudio := by
  have hcall : (dtEnableClass imx6Release Board.webcamTable (Board.mic.info.classes.headD [])
      false).succeeds (Board.booted imx6Release 0) = true := by decide +kernel
  refine ⟨.cons (classStep_after hcall) (.nil _), Board.booted_release_ok, fun hright => ?_⟩
  have hanswer : dtIsClassEnabled Board.webcamTable (Board.camera.info.classes.headD [])
      Board.noAudio = true := by decide +kernel
  have hmem : Board.webcam ∈ Board.webcamTable.devices := by decide +kernel
  have hoff : Board.noAudio.enabled Board.webcam = false := by decide +kernel
  have hon := ((hright _).mp hanswer).2 Board.webcam hmem (by decide +kernel)
  rw [hoff] at hon
  cases hon

end SeCloak
