import SeCloak.Entry.Faults

/-!
# Panics and asserts

`irq_check_valid` and `cloak_is_group_enabled` panic on values that they do not know, and the
drivers assert what they rely on. In the states that the system reaches, the counters never become
negative and an interrupt is in group 0 when it is added, so that only two things are left: settings
with an unknown group, which `CLOAK_SET` meets while it draws, and the assert of `gic_it_enable`
after `irq_unsecure`.
-/

namespace SeCloak
open Misc

/-! ## Interrupts -/

/-- Every interrupt of the devices that settings switch, and of the keys, exists. -/
structure Sys.IrqsExist (s : Sys) (t : DeviceTable) : Prop where
  devices : ∀ d ∈ t.devices, ∀ x ∈ d.chain, ∀ i ∈ x.info.irqs, i.desc.irq < s.numIrqs i.desc.chip
  keys : ∀ k ∈ s.keys, ∀ b < k.nbuttons, ∀ d ∈ k.desc? b, d.irq < s.numIrqs d.chip

/-- No step of the running system changes the chips or the buttons. -/
theorem sysStep_irqs {env : Env} {t : DeviceTable} {s s' : Sys} {x : SysEvent}
    (h : sysStep env t s x s') (hs : s.Between t) : s'.keys = s.keys ∧ s'.chip = s.chip := by
  obtain ⟨act, log⟩ := x
  cases act with
  | smc c =>
    have hstep : smcStep env t s c s' := ⟨log, h⟩
    by_cases hset : c.args.a0 = opteeSmcCloakSet
    · obtain ⟨-, w, s₁, ⟨st⟩, rfl⟩ := smcStep_set hs.lock hset hstep
      exact ⟨st.keys_same hs.keys, st.chip_same hs.keys⟩
    · obtain ⟨rfl, -⟩ := smcStep_other hs.lock hset hstep
      exact ⟨rfl, rfl⟩
  | abort ctx ctx' status pa ia =>
    have hrun : Code.Runs (emuHandle env ctx status pa ia) s log ctx' s' := h
    obtain ⟨hbus, -, -⟩ := emuHandle_frame hrun
    constructor <;> rw [hbus.rest]
  | other =>
    obtain ⟨-, hother⟩ := h
    constructor <;> rw [hother.rest]

theorem steps_irqsExist {env : Env} {t : DeviceTable} {s₀ s : Sys} {xs : List SysEvent}
    (hboot : Booted env s₀) (hirq : s₀.IrqsExist t) (h : Steps (sysStep env t) s₀ xs s) :
    s.IrqsExist t := by
  have hinv : Sound env t False s ∧ s.keys = s₀.keys ∧ s.chip = s₀.chip := by
    refine h.invariant (I := fun s => Sound env t False s ∧ s.keys = s₀.keys ∧ s.chip = s₀.chip)
      ?_ ⟨hboot.sound, rfl, rfl⟩
    intro x _ u u' hstep ⟨hu, hkeys, hchip⟩
    obtain ⟨hkeys', hchip'⟩ := sysStep_irqs hstep hu.between
    exact ⟨sysStep_sound hstep (fun hc => hc.elim) hu, hkeys'.trans hkeys, hchip'.trans hchip⟩
  obtain ⟨-, hkeys, hchip⟩ := hinv
  have hnum : s.numIrqs = s₀.numIrqs := by
    unfold Sys.numIrqs
    rw [hchip]
  constructor
  · rw [hnum]
    exact hirq.devices
  · rw [hnum, hkeys]
    exact hirq.keys

/-- Where all interrupts exist, switching devices does not panic. -/
theorem PolicyFault.not_panic {env : Env} {t : DeviceTable} {b : Bool} {s : Sys}
    (hirq : s.IrqsExist t) : ¬ PolicyFault env t b s .panic := by
  rintro ⟨d, hd, x, hx, -, ⟨i, hi, (⟨-, hno⟩ | ⟨he, -⟩) | ⟨-, he, -⟩⟩ | ⟨-, -, he | he⟩⟩
  · exact hno (hirq.devices d hd x hx i hi)
  · cases he
  · cases he
  · cases he
  · cases he

/-- With valid groups no call panics. -/
theorem cloakEntry_not_panic {env : Env} {t : DeviceTable} {s : Sys} {clean : Prop}
    {presses : List Word} {args : SmcArgs} {w : List Event} (hs : Sound env t clean s)
    (hirq : s.IrqsExist t) (hgroups : GroupsValid args.a1) :
    ¬ Code.Stops (cloakEntry env t presses args) s w .panic := by
  intro h
  obtain ⟨-, hfault⟩ := cloakEntry_stops hs.between.lock hs.between.keys hs.settled.balanced h
  cases hfault with
  | keys hnil hfault =>
    obtain he | ⟨k, hk, he | ⟨-, b, hb, d, hd, hno⟩⟩ := hfault
    · cases he
    · cases he
    · exact hno (hirq.keys k hk b hb d hd)
  | dialog hfault =>
    cases hfault with
    | group hbad => exact hbad hgroups
    | policy b _ _ hpol => exact PolicyFault.not_panic hirq hpol

/-! ## Asserts -/

/-- The condition under which the next call does not run into the assert of `gic_it_enable`: asserts
are compiled out, or no disabled device lists an interrupt of the distributor. -/
def AssertsHold (env : Env) (t : DeviceTable) (s : Sys) : Prop :=
  env.asserts = true → ∀ d ∈ t.devices, ∀ x ∈ d.chain, s.enabled x = false →
    ∀ i ∈ x.info.irqs, ∀ it, i.desc.line ≠ .gic it

theorem PolicyFault.not_assertion {env : Env} {t : DeviceTable} {b : Bool} {s : Sys}
    (hcsl : ∀ d ∈ t.devices, ∀ x ∈ d.chain, ∀ c ∈ x.info.csu, IsCsl c)
    (hasserts : AssertsHold env t s) : ¬ PolicyFault env t b s .assertion := by
  rintro ⟨d, hd, x, hx, hoff, hfault⟩
  rcases hfault with ⟨i, hi, (⟨he, -⟩ | ⟨he, -⟩) | ⟨hb, -, ha, it, hit⟩⟩ | ⟨-, ⟨c, hc, hno⟩, -⟩
  · cases he
  · cases he
  · exact hasserts ha d hd x hx (hoff hb) i hi it hit
  · exact hno (hcsl d hd x hx c hc)

/-- After any run of the system, a `CLOAK_SET` with valid groups neither panics nor fails an assert,
as long as the assert of `gic_it_enable` is not reached for an interrupt that was just given to the
non-secure world. -/
theorem policy_never_faults {env : Env} {t : DeviceTable} {s₀ s : Sys} {xs : List SysEvent}
    {presses : List Word} {args : SmcArgs} (hboot : Booted env s₀)
    (hcsl : ∀ d ∈ t.devices, ∀ x ∈ d.chain, ∀ c ∈ x.info.csu, IsCsl c) (hirq : s₀.IrqsExist t)
    (h : Steps (sysStep env t) s₀ xs s) (hgroups : GroupsValid args.a1)
    (hasserts : AssertsHold env t s) (w : List Event) :
    ¬ Code.Stops (cloakEntry env t presses args) s w .assertion ∧
      ¬ Code.Stops (cloakEntry env t presses args) s w .panic := by
  have hs := steps_sound hboot h
  refine ⟨fun hstop => ?_, cloakEntry_not_panic hs (steps_irqsExist hboot hirq h) hgroups⟩
  obtain ⟨-, hfault⟩ := cloakEntry_stops hs.between.lock hs.between.keys hs.settled.balanced hstop
  cases hfault with
  | keys hnil hfault =>
    obtain he | ⟨k, hk, he | ⟨he, -⟩⟩ := hfault
    · cases he
    · cases he
    · cases he
  | dialog hfault =>
    cases hfault with
    | policy b _ _ hpol => exact PolicyFault.not_assertion hcsl hasserts hpol

theorem Board.csls_exist : ∀ d ∈ Board.table.devices, ∀ x ∈ d.chain, ∀ c ∈ x.info.csu, IsCsl c := by
  unfold IsCsl
  decide +kernel

theorem Board.irqs_exist : (Board.booted imx6 0).IrqsExist Board.table :=
  ⟨by decide +kernel, by decide +kernel⟩

/-- A call as a step of the system. -/
theorem sysStep_after_set {env : Env} {t : DeviceTable} {c : SmcCall} {s : Sys}
    (hlock : s.cloak.lock = 0) (hset : c.args.a0 = opteeSmcCloakSet)
    (hres : c.res = { c.args with a0 := opteeSmcReturnOk })
    (h : (cloakEntry env t c.presses c.args).succeeds s = true) :
    Steps (sysStep env t) s [⟨.smc c, c.log env t s⟩] (c.after env t s) := by
  have hrun := runs_after_set hlock hset hres h
  exact .cons hrun (.nil _)

theorem policy_never_faults_release :
    AssertsHold imx6Release Board.table (Board.cloaked imx6Release) ∧
      ∀ w, ¬ Code.Stops (cloakEntry imx6Release Board.table Board.allowWifi.presses
          Board.allowWifi.args) (Board.cloaked imx6Release) w .assertion ∧
        ¬ Code.Stops (cloakEntry imx6Release Board.table Board.allowWifi.presses
          Board.allowWifi.args) (Board.cloaked imx6Release) w .panic := by
  have hboot := Board.booted_release_ok
  have hirq : (Board.booted imx6Release 0).IrqsExist Board.table :=
    ⟨by decide +kernel, by decide +kernel⟩
  have hrun := @sysStep_after_set imx6Release Board.table Board.cloakAll _ hboot.lock rfl rfl
    (by decide +kernel)
  have hasserts : AssertsHold imx6Release Board.table (Board.cloaked imx6Release) :=
    fun ha => by cases ha
  exact ⟨hasserts, policy_never_faults hboot Board.csls_exist hirq hrun (by decide) hasserts⟩

/-- With asserts, the second confirmed request stops: it enables a radio that the first one
disabled. -/
theorem second_set_asserts :
    Booted imx6 (Board.booted imx6 0) ∧ (Board.booted imx6 0).IrqsExist Board.table ∧
      (∀ d ∈ Board.table.devices, ∀ x ∈ d.chain, ∀ c ∈ x.info.csu, IsCsl c) ∧
      Steps (smcStep imx6 Board.table) (Board.booted imx6 0) [Board.cloakAll] (Board.cloaked imx6) ∧
      Board.cloakAll.Confirmed ∧ Board.allowWifi.Confirmed ∧ GroupsValid Board.cloakAll.args.a1 ∧
      GroupsValid Board.allowWifi.args.a1 ∧
      ∃ w, Code.Stops (cloakEntry imx6 Board.table Board.allowWifi.presses Board.allowWifi.args)
        (Board.cloaked imx6) w .assertion :=
  ⟨Board.booted_ok, Board.irqs_exist, Board.csls_exist, .cons Board.step_cloaked (.nil _),
    Board.cloakAll_confirmed, ⟨rfl, rfl⟩, by decide, by decide, _,
    Code.stops_of_fault (by decide +kernel)⟩

/-! ## Groups -/

/-- What the log shows of a call that never came to apply settings: flags and settings are those of
the start, and only the display has taken its CSL and its region. -/
structure Sys.Untouched (s u : Sys) : Prop where
  enabled : u.enabled = s.enabled
  prevSettings : u.cloak.prevSettings = s.cloak.prevSettings
  counts : ∀ n, n ≠ fbCsl.toNat → u.csu.counts n = s.csu.counts n
  regions : u.regions = s.regions ∨ u.regions = ⟨s.fb.basePaddr, 0x400000, .fb⟩ :: s.regions

theorem fbAcquire_untouched {env : Env} {r g b : Byte} {s u : Sys}
    (h : .prot u ∈ (fbAcquire env r g b s).events) : s.Untouched u := by
  have hquiet : (fbInfoOf env s.fb.cpmem).Draws fun x => ∀ u, x ≠ .prot u :=
    ⟨fun _ _ _ _ hx => (by cases hx), fun _ _ _ _ hx => (by cases hx)⟩
  rw [fbAcquire, Code.events_bind_of_runs (Code.runs_get.mpr ⟨rfl, rfl, rfl⟩), List.nil_append] at h
  obtain ⟨w₁, _, s₁, h₁⟩ := (emuAddRegion_total env s.fb.basePaddr 0x400000 .fb).runs s
  obtain ⟨rfl, hs₁⟩ := emuAddRegion_runs h₁
  have hregions : s₁.regions = s.regions ∨
      s₁.regions = ⟨s.fb.basePaddr, 0x400000, .fb⟩ :: s.regions := by
    rw [hs₁]
    by_cases hm : env.malloc s.allocs = true
    · exact Or.inr (if_pos hm)
    · exact Or.inl (if_neg hm)
  rw [Code.events_bind_of_runs h₁, List.mem_append] at h
  rcases h with h | h
  · obtain rfl := Event.prot.inj (List.mem_singleton.mp h)
    exact ⟨by rw [hs₁], by rw [hs₁], fun _ _ => by rw [hs₁], hregions⟩
  obtain ⟨w₂, _, s₂, h₂⟩ := (@csuSetCsl_protect_total env fbCsl (by decide) (by decide)).runs s₁
  obtain ⟨-, -, hs₂, rfl⟩ := csuSetCsl_runs h₂
  rw [Code.events_bind_of_runs h₂, List.mem_append] at h
  rcases h with h | x₂
  · obtain rfl := Event.prot.inj (List.mem_singleton.mp h)
    refine ⟨by rw [hs₂, hs₁], by rw [hs₂, hs₁], fun n hn => ?_, by rw [hs₂]; exact hregions⟩
    rw [hs₂]
    change (s₁.csu.setCsl _ true).counts n = _
    rw [setCsl_counts, if_neg hn, hs₁]
  have hfb : s₂.fb = s.fb := by rw [hs₂, hs₁]
  obtain k₃ | ⟨_, m, s₃, h₃, x₃⟩ := Code.mem_events_bind.mp x₂
  · exact (Code.emits_bind (P := fun _ => False) Code.emits_get
      (fun _ => Code.emits_bind (Code.emits_require _) fun _ => Code.emits_pure _) _ _ k₃).elim
  rw [readCpmem, Code.runs_get_bind, Code.runs_require_bind, Code.runs_pure, hfb] at h₃
  obtain ⟨-, -, rfl, -⟩ := h₃
  obtain k₄ | ⟨_, _, s₄, -, x₄⟩ := Code.mem_events_bind.mp x₃
  · exact absurd rfl (fbClear_emits (fbInfoOf_sized env _) hquiet _ _ k₄ u)
  · exact (Code.emits_bind (P := fun _ => False)
      (Code.emits_forEach fun _ _ => modifyCpmem_emits) (fun _ => Code.emits_pure _) _ _ x₄).elim

theorem cloakDialog_valid {env : Env} {t : DeviceTable} {presses : List Word} {info : FbInfo}
    {a1 : Word} {s s' : Sys} {w : List Event} {u : Unit}
    (h : Code.Runs (cloakDialog env t presses info a1) s w u s') : GroupsValid a1 := by
  obtain ⟨_, _, _, _, -, h₁, -⟩ := Code.runs_bind.mp h
  obtain ⟨_, _, _, _, -, h₂, -⟩ := Code.runs_bind.mp h₁
  obtain ⟨_, _, _, _, h₃, -, -⟩ := Code.runs_bind.mp h₂
  exact cloakBlitRest_valid h₃

/-- A request that returns has known groups. -/
theorem cloakEntrySet_valid {env : Env} {t : DeviceTable} {presses : List Word} {args res : SmcArgs}
    {s s' : Sys} {w : List Event} (hlock : s.cloak.lock = 0)
    (h : Code.Runs (cloakEntrySet env t presses args) s w res s') : GroupsValid args.a1 := by
  obtain ⟨_, locked, s₁, _, h₁, k₁, -⟩ := Code.runs_bind.mp h
  obtain ⟨-, ⟨-, rfl, -⟩ | ⟨hheld, -, -⟩⟩ := cpuSpinTrylock_runs.mp h₁
  swap
  · exact absurd hlock hheld
  rw [if_pos rfl] at k₁
  obtain ⟨_, err, _, _, h₂, -, -⟩ := Code.runs_bind.mp k₁
  obtain ⟨_, fb, _, _, h₃, k₃, -⟩ := Code.runs_bind.mp h₂
  obtain ⟨rfl, -⟩ := fbAcquire_stages h₃
  obtain ⟨_, ok, _, _, h₄, k₄, -⟩ := Code.runs_bind.mp k₃
  obtain ⟨rfl, -⟩ := gpioKeysAcquire_cloak h₄
  obtain ⟨_, _, _, _, h₅, -, -⟩ := Code.runs_bind.mp k₄
  rcases Code.runs_runIf.mp h₅ with ⟨-, h₅⟩ | ⟨hn, -, -⟩
  · exact cloakDialog_valid h₅
  · exact absurd rfl hn

/-- With an unknown group the dialog ends while it draws. -/
theorem cloakSetBody_untouched {env : Env} {t : DeviceTable} {presses : List Word} {a1 : Word}
    {s u : Sys} (hbad : ¬ GroupsValid a1)
    (h : .prot u ∈ (cloakSetBody env t presses a1 s).events) : s.Untouched u := by
  obtain k₁ | ⟨w₁, res, s₁, h₁, x₁⟩ := Code.mem_events_bind.mp h
  · exact fbAcquire_untouched k₁
  exfalso
  obtain ⟨rfl, -⟩ := fbAcquire_stages h₁
  have hsized := fbInfoOf_sized env s.fb.cpmem
  have hquiet : (fbInfoOf env s.fb.cpmem).Draws fun x => ∀ u, x ≠ .prot u :=
    ⟨fun _ _ _ _ hx => (by cases hx), fun _ _ _ _ hx => (by cases hx)⟩
  obtain k₂ | ⟨_, ok, s₂, h₂, x₂⟩ := Code.mem_events_bind.mp x₁
  · exact (gpioKeysAcquire_emits (P := fun _ => False) _ _ k₂).elim
  obtain ⟨rfl, -⟩ := gpioKeysAcquire_cloak h₂
  obtain k₃ | ⟨_, _, s₃, h₃, -⟩ := Code.mem_events_bind.mp x₂
  · rw [Code.runIf, if_pos rfl] at k₃
    obtain k₄ | ⟨_, _, s₄, -, x₄⟩ := Code.mem_events_bind.mp k₃
    · refine Code.emits_forEach (P := fun x => ∀ u, x ≠ .prot u) (fun b hb => ?_) _ _ k₄ u rfl
      exact fbBlitImage_emits hsized hquiet (displayStatic_small b hb)
    obtain k₅ | ⟨_, _, s₅, -, x₅⟩ := Code.mem_events_bind.mp x₄
    · exact cloakBlitClasses_emits hsized hquiet cloakClasses_small _ _ k₅ u rfl
    obtain k₆ | ⟨_, _, s₆, h₆, -⟩ := Code.mem_events_bind.mp x₅
    · exact cloakBlitRest_emits hsized hquiet _ _ k₆ u rfl
    · exact hbad (cloakBlitRest_valid h₆)
  · rcases Code.runs_runIf.mp h₃ with ⟨-, h₃⟩ | ⟨hn, -, -⟩
    · exact hbad (cloakDialog_valid h₃)
    · exact hn rfl

/-- The values of the groups decide whether a `CLOAK_SET` can panic. With known ones it never does,
whatever state the system reached. With an unknown one the call does not return: it ends before
settings are applied, and it ends in the panic if display and keys are ready. -/
theorem panics_of_unknown_group {env : Env} {t : DeviceTable} {s₀ s : Sys} {xs : List SysEvent}
    {presses : List Word} {args : SmcArgs} (hboot : Booted env s₀) (hirq : s₀.IrqsExist t)
    (h : Steps (sysStep env t) s₀ xs s) (hset : args.a0 = opteeSmcCloakSet) :
    (GroupsValid args.a1 → ∀ w, ¬ Code.Stops (cloakEntry env t presses args) s w .panic) ∧
      (¬ GroupsValid args.a1 →
        (∀ w res s', ¬ Code.Runs (cloakEntry env t presses args) s w res s') ∧
        (∀ u, .prot u ∈ (cloakEntry env t presses args s).events → s.Untouched u) ∧
        (s.DisplayReady env → (∃ k ∈ s.keys, k.handlers ≠ []) →
          ∃ w, Code.Stops (cloakEntry env t presses args) s w .panic)) := by
  have hs := steps_sound hboot h
  refine ⟨fun hgroups w => ?_, fun hbad => ?_⟩
  · exact cloakEntry_not_panic hs (steps_irqsExist hboot hirq h) hgroups
  have hnever : ∀ w res s', ¬ Code.Runs (cloakEntry env t presses args) s w res s' := by
    intro w res s' hrun
    rw [cloakEntry, if_pos hset] at hrun
    exact hbad (cloakEntrySet_valid hs.between.lock hrun)
  refine ⟨hnever, fun u hu => ?_, fun hdisplay hkeys => ?_⟩
  · rw [cloakEntry, if_pos hset, cloakEntrySet_events] at hu
    have hu' := cloakSetBody_untouched hbad hu.2
    exact ⟨hu'.enabled, hu'.prevSettings, hu'.counts, hu'.regions⟩
  · obtain ⟨k, hk, hhs⟩ := hkeys
    rcases Code.runs_or_stops (cloakEntry env t presses args) s with ⟨res, s', hrun⟩ | ⟨e, hstop⟩
    · exact absurd hrun (hnever _ _ _)
    obtain ⟨-, hfault⟩ := cloakEntry_stops hs.between.lock hs.between.keys hs.settled.balanced hstop
    cases hfault with
    | display hno => exact absurd hdisplay hno
    | keys hnil _ => exact absurd (hnil k hk) hhs
    | dialog hfault =>
      cases hfault with
      | group _ => exact ⟨_, hstop⟩
      | waiting hvalid _ => exact absurd hvalid hbad
      | policy _ hvalid _ _ => exact absurd hvalid hbad

/-- Settings whose first group has a value that no constant has. -/
def Board.unknownGroup : SmcArgs := ⟨opteeSmcCloakSet, 0x8, 0, 0, 0, 0, 0, 0⟩

theorem panics_of_unknown_group_board :
    ¬ GroupsValid Board.unknownGroup.a1 ∧ (Board.booted imx6 0).DisplayReady imx6 ∧
      (GroupsValid Board.unknownGroup.a1 → ∀ w, ¬ Code.Stops
        (cloakEntry imx6 Board.table [] Board.unknownGroup) (Board.booted imx6 0) w .panic) ∧
      (¬ GroupsValid Board.unknownGroup.a1 →
        (∀ w res s', ¬ Code.Runs (cloakEntry imx6 Board.table [] Board.unknownGroup)
          (Board.booted imx6 0) w res s') ∧
        (∀ u, .prot u ∈ (cloakEntry imx6 Board.table [] Board.unknownGroup
          (Board.booted imx6 0)).events → (Board.booted imx6 0).Untouched u) ∧
        ((Board.booted imx6 0).DisplayReady imx6 →
          (∃ k ∈ (Board.booted imx6 0).keys, k.handlers ≠ []) →
          ∃ w, Code.Stops (cloakEntry imx6 Board.table [] Board.unknownGroup) (Board.booted imx6 0)
            w .panic)) :=
  ⟨by decide, ⟨by decide +kernel, by decide +kernel, by decide +kernel⟩,
    panics_of_unknown_group Board.booted_ok Board.irqs_exist (.nil _) rfl⟩

/-- Such a request reaches the panic. -/
theorem unknown_group_panics :
    Booted imx6 (Board.booted imx6 0) ∧ ¬ GroupsValid Board.unknownGroup.a1 ∧
      ∃ w, Code.Stops (cloakEntry imx6 Board.table [keyHomepage] Board.unknownGroup)
        (Board.booted imx6 0) w .panic :=
  ⟨Board.booted_ok, by decide, _, Code.stops_of_fault (by decide +kernel)⟩

end SeCloak
