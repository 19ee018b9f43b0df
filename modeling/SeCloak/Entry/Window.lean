import SeCloak.Entry.System

/-!
# Devices that stay cloaked

A confirmed `CLOAK_SET` enables every device before it disables those that are not allowed. A
device that is cloaked before and after the call is therefore released and protected again. The
steps of the call split in four: the device is protected until the steps of its own release, then
it is enabled, and from its own protection on it is protected again.
-/

namespace SeCloak
open Misc

/-! ## The states of a phase -/

/-- In all of the states the device is disabled and protected. -/
def Guarded (env : Env) (d : Device) (us : List Sys) : Prop :=
  ∀ u ∈ us, u.enabled d = false ∧ Protected env u d

/-- In all of the states the device is enabled. -/
def Released (d : Device) (us : List Sys) : Prop := ∀ u ∈ us, u.enabled d = true

theorem Guarded.append {env : Env} {d : Device} {us us' : List Sys} (h : Guarded env d us)
    (h' : Guarded env d us') : Guarded env d (us ++ us') :=
  fun u hu => (List.mem_append.mp hu).elim (h u) (h' u)

theorem Released.append {d : Device} {us us' : List Sys} (h : Released d us)
    (h' : Released d us') : Released d (us ++ us') :=
  fun u hu => (List.mem_append.mp hu).elim (h u) (h' u)

/-- The states of a run that only enables devices, with the flag of `d` before and after. -/
inductive OnPhase (env : Env) (d : Device) : Bool → List Sys → Bool → Prop
  | off {us : List Sys} (guarded : Guarded env d us) : OnPhase env d false us false
  | opens {A R E : List Sys} (guarded : Guarded env d A)
    (length : R.length = d.info.csu.length + d.info.resources.length)
    (release : ∀ u ∈ R, u.enabled d = false) (released : Released d E) :
    OnPhase env d false (A ++ R ++ E) true
  | on {us : List Sys} (released : Released d us) : OnPhase env d true us true

/-- The states of a run that only disables devices. -/
inductive OffPhase (env : Env) (d : Device) : Bool → List Sys → Bool → Prop
  | on {us : List Sys} (released : Released d us) : OffPhase env d true us true
  | closes {E C : List Sys} (released : Released d E) (guarded : Guarded env d C) :
    OffPhase env d true (E ++ C) false
  | off {us : List Sys} (guarded : Guarded env d us) : OffPhase env d false us false

theorem OnPhase.append {env : Env} {d : Device} {b b' b'' : Bool} {us us' : List Sys}
    (h : OnPhase env d b us b') (h' : OnPhase env d b' us' b'') :
    OnPhase env d b (us ++ us') b'' := by
  cases h with
  | off hg =>
    cases h' with
    | off hg' => exact .off (hg.append hg')
    | @opens A R E hA hlen hrel hE =>
      have happ : us ++ (A ++ R ++ E) = (us ++ A) ++ R ++ E := by simp
      rw [happ]
      exact .opens (hg.append hA) hlen hrel hE
  | @opens A R E hA hlen hrel hE =>
    cases h' with
    | on hr =>
      rw [List.append_assoc]
      exact .opens hA hlen hrel (hE.append hr)
  | on hr =>
    cases h' with
    | on hr' => exact .on (hr.append hr')

theorem OffPhase.append {env : Env} {d : Device} {b b' b'' : Bool} {us us' : List Sys}
    (h : OffPhase env d b us b') (h' : OffPhase env d b' us' b'') :
    OffPhase env d b (us ++ us') b'' := by
  cases h with
  | on hr =>
    cases h' with
    | on hr' => exact .on (hr.append hr')
    | @closes E C hE hC =>
      rw [← List.append_assoc]
      exact .closes (hr.append hE) hC
  | @closes E C hE hC =>
    cases h' with
    | off hg =>
      rw [List.append_assoc]
      exact .closes hE (hC.append hg)
  | off hg =>
    cases h' with
    | off hg' => exact .off (hg.append hg')

/-! ## Switches of single devices -/

theorem Covered.guarded {env : Env} {L : List Device} {flag : Device → Bool} {w : List Event}
    {d : Device} (h : Covered env L flag w) (hd : d ∈ L) (hflag : flag d = false)
    (hcsl : ∀ c ∈ d.info.csu, IsCsl c) : Guarded env d (protStates w) := by
  intro u hu
  obtain ⟨hen, X, Y, hl⟩ := h u (mem_protStates.mp hu)
  exact ⟨by rw [hen, hflag], hl.protected hd hcsl⟩

theorem Covered.flags {env : Env} {L : List Device} {flag : Device → Bool} {w : List Event}
    (h : Covered env L flag w) (d : Device) : ∀ u ∈ protStates w, u.enabled d = flag d := by
  intro u hu
  rw [(h u (mem_protStates.mp hu)).1]

/-- Runs that keep the accounts and pass through a phase for `d`. -/
def Phased (P : Bool → List Sys → Bool → Prop) (env : Env) (clean : Prop) (X : List Int)
    (d : Device) (s : Sys) (w : List Event) (s' : Sys) : Prop :=
  Balanced env clean X s →
    Balanced env clean X s' ∧ P (s.enabled d) (protStates w) (s'.enabled d)

theorem phased_closed {P : Bool → List Sys → Bool → Prop} {env : Env} {clean : Prop}
    {X : List Int} {d : Device} (hnil : ∀ b, P b [] b)
    (happ : ∀ {b b' b'' us us'}, P b us b' → P b' us' b'' → P b (us ++ us') b'') :
    Code.Closed (Phased P env clean X d) where
  nil s hb := ⟨hb, hnil _⟩
  append h h' hb := by
    obtain ⟨hb₁, h₁⟩ := h hb
    obtain ⟨hb₂, h₂⟩ := h' hb₁
    rw [protStates_append]
    exact ⟨hb₂, happ h₁ h₂⟩

theorem onPhase_nil (env : Env) (d : Device) (b : Bool) : OnPhase env d b [] b := by
  cases b
  · exact .off (by simp [Guarded])
  · exact .on (by simp [Released])

theorem offPhase_nil (env : Env) (d : Device) (b : Bool) : OffPhase env d b [] b := by
  cases b
  · exact .off (by simp [Guarded])
  · exact .on (by simp [Released])

/-- Switching another device leaves `d` as it is. -/
theorem dtEnableDevice_other {env : Env} {clean : Prop} {X : List Int} {d e : Device} {b r : Bool}
    {s s' : Sys} {w : List Event} {L : List Device} (hp : d.canProtect = true) (hne : d ≠ e)
    (h : Code.Runs (dtEnableDevice env e b) s w r s') (ha : Accounts env clean X s L) :
    s'.enabled d = s.enabled d ∧ (s.enabled d = false → Guarded env d (protStates w)) ∧
      (s.enabled d = true → Released d (protStates w)) := by
  obtain ⟨hcov, -, -⟩ := dtEnableDevice_accounts h ha
  refine ⟨?_, fun hoff => ?_, fun hon u hu => ?_⟩
  · rw [dtEnableDevice_enabled h, Function.update_of_ne hne]
  · have hd : d ∈ L := (ha.mem d).mpr ⟨hp, hoff⟩
    exact hcov.guarded ((List.mem_erase_of_ne hne).mpr hd) hoff (ha.range d hd)
  · rw [hcov.flags d u hu, hon]

theorem dtEnableDevice_onPhase {env : Env} {clean : Prop} {X : List Int} {d e : Device}
    (hp : d.canProtect = true) :
    Code.Within (dtEnableDevice env e true) (Phased (OnPhase env d) env clean X d) := by
  rintro s w r s' h ⟨L, ha⟩
  obtain ⟨hcov, hb, hlen⟩ := dtEnableDevice_accounts h ha
  refine ⟨hb, ?_⟩
  by_cases hde : d = e
  · subst hde
    have hen : s'.enabled d = true := by rw [dtEnableDevice_enabled h, Function.update_self]
    rw [hen]
    cases hd : s.enabled d with
    | false =>
      have hsplit : protStates w = [] ++ protStates w ++ [] := by simp
      rw [hsplit]
      refine .opens (by simp [Guarded]) (hlen hp hd rfl) (fun u hu => ?_) (by simp [Released])
      rw [hcov.flags d u hu, hd]
    | true =>
      refine .on fun u hu => ?_
      rw [hcov.flags d u hu, hd]
  · obtain ⟨heq, hoff, hon⟩ := dtEnableDevice_other hp hde h ha
    rw [heq]
    cases hd : s.enabled d with
    | false => exact .off (hoff hd)
    | true => exact .on (hon hd)

theorem dtEnableDevice_offPhase {env : Env} {clean : Prop} {X : List Int} {d e : Device}
    (hp : d.canProtect = true) :
    Code.Within (dtEnableDevice env e false) (Phased (OffPhase env d) env clean X d) := by
  rintro s w r s' h ⟨L, ha⟩
  obtain ⟨hcov, hb, -⟩ := dtEnableDevice_accounts h ha
  refine ⟨hb, ?_⟩
  by_cases hde : d = e
  · subst hde
    have hen : s'.enabled d = false := by rw [dtEnableDevice_enabled h, Function.update_self]
    cases hd : s.enabled d with
    | false =>
      obtain ⟨-, ⟨-, rfl, -⟩ | ⟨hne, -⟩⟩ := dtEnableDevice_runs h
      · rw [hen]
        exact .off (by simp [Guarded])
      · exact absurd hd hne
    | true =>
      rw [hen]
      have hsplit : protStates w = protStates w ++ [] := by simp
      rw [hsplit]
      refine .closes (fun u hu => ?_) (by simp [Guarded])
      rw [hcov.flags d u hu, hd]
  · obtain ⟨heq, hoff, hon⟩ := dtEnableDevice_other hp hde h ha
    rw [heq]
    cases hd : s.enabled d with
    | false => exact .off (hoff hd)
    | true => exact .on (hon hd)

/-! ## A whole call -/

theorem DrawOnly.protStates {s s' : Sys} {w : List Event} (h : DrawOnly s w s') :
    protStates w = [] := by
  rw [List.eq_nil_iff_forall_not_mem]
  intro u hu
  exact h.quiet u (mem_protStates.mp hu)

/-- Applying settings to a state in which `d` is disabled, when it ends disabled again. -/
theorem cloakApply_window {env : Env} {clean : Prop} {X : List Int} {t : DeviceTable} {a1 : Word}
    {d : Device} {s s' : Sys} {w : List Event} {u : Unit} (hp : d.canProtect = true)
    (hs : s.Explained t) (hb : Balanced env clean X s) (hoff : s.enabled d = false)
    (hoff' : s'.enabled d = false) (h : Code.Runs (cloakApply env t (cloakVerdicts a1)) s w u s') :
    ∃ A R E C, protStates w = A ++ R ++ E ++ C ∧ Guarded env d A ∧ Guarded env d C ∧
      R.length = d.info.csu.length + d.info.resources.length ∧
      (∀ u ∈ R, u.enabled d = false) ∧ Released d E := by
  obtain ⟨w₁, _, s₁, w₂, h₁, h₂, rfl⟩ := Code.runs_bind.mp h
  have hon : Phased (OnPhase env d) env clean X d s w₁ s₁ :=
    within_enableClasses (phased_closed (onPhase_nil env d) OnPhase.append)
      (fun e => dtEnableDevice_onPhase hp) h₁
  have hdis : Phased (OffPhase env d) env clean X d s₁ w₂ s' :=
    within_disableClasses (phased_closed (offPhase_nil env d) OffPhase.append)
      (fun e => dtEnableDevice_offPhase hp) h₂
  obtain ⟨hb₁, hphase₁⟩ := hon hb
  obtain ⟨-, hphase₂⟩ := hdis hb₁
  rw [hoff, enableClasses_all hs h₁ d] at hphase₁
  rw [enableClasses_all hs h₁ d, hoff'] at hphase₂
  rw [protStates_append]
  generalize protStates w₁ = us₁ at hphase₁
  generalize protStates w₂ = us₂ at hphase₂
  cases hphase₁ with
  | @opens A R E hA hlen hrel hE =>
    cases hphase₂ with
    | @closes E' C hE' hC =>
      exact ⟨A, R, E ++ E', C, by simp, hA, hC, hlen, hrel, hE.append hE'⟩

/-- The steps of a confirmed call, for a device that is disabled before and after it: it is
protected before the steps of its own release and again after those of its own protection, and
between them it is enabled. -/
theorem cloaked_but_for_window {env : Env} {t : DeviceTable} {s₀ s s' : Sys} {xs : List SysEvent}
    {c : SmcCall} {w : List Event} {d : Device} (hboot : Booted env s₀)
    (h : Steps (sysStep env t) s₀ xs s) (hconf : c.Confirmed)
    (hcall : Code.Runs (cloakEntry env t c.presses c.args) s w c.res s')
    (hp : d.canProtect = true) (hoff : s.enabled d = false) (hoff' : s'.enabled d = false) :
    ∃ A R E C, protStates w = A ++ R ++ E ++ C ∧
      (∀ u ∈ A ++ C, u.enabled d = false ∧ Protected env u d) ∧
      R.length = d.info.csu.length + d.info.resources.length ∧
      (∀ u ∈ R, u.enabled d = false) ∧ ∀ u ∈ E, u.enabled d = true := by
  have hs := steps_sound hboot h
  rw [cloakEntry, if_pos hconf.1] at hcall
  obtain ⟨-, s₁, ⟨st⟩, rfl⟩ := cloakEntrySet_runs hs.between.lock hcall
  have happly := st.apply
  rw [if_pos hconf.2] at happly
  obtain ⟨sP, hrun, hsP⟩ := happly
  have hbefore : st.sAnswer.enabled = s.enabled := st.enabled_before
  have hen₁ : s₁.enabled = st.sApplied.enabled := st.enabled_after
  have hexpl : st.sAnswer.Explained t := by
    rw [Sys.Explained, hbefore]
    exact hs.between.explained
  obtain ⟨L, ha⟩ := hs.settled.balanced
  have ha' : Accounts env (∀ x ∈ xs, x.Clean) _ s.locked L :=
    ha.congr rfl rfl rfl (Nat.le_refl _)
  obtain ⟨hab, hcovFb⟩ := st.accounts_before ha'
  have hdL : d ∈ L := (ha.mem d).mpr ⟨hp, hoff⟩
  have hoffP : sP.enabled d = false := by
    have hd : s₁.enabled d = false := hoff'
    rw [hen₁, hsP] at hd
    exact hd
  have hoffA : st.sAnswer.enabled d = false := by rw [hbefore, hoff]
  obtain ⟨A, R, E, C, hsplit, hA, hC, hlen, hrel, hE⟩ :=
    cloakApply_window hp hexpl ⟨L, hab⟩ hoffA hoffP hrun
  -- the framebuffer is released after the settings are applied
  obtain ⟨L', hP⟩ := cloakApply_balanced hrun ⟨L, hab⟩
  have happlied : Accounts env (∀ x ∈ xs, x.Clean) _ st.sApplied L' :=
    hP.congr (by rw [hsP]) (by rw [hsP]) (by rw [hsP]) (Nat.le_of_eq (by rw [hsP]))
  obtain ⟨-, hcovEnd⟩ := st.accounts_after happlied
  have hdL' : d ∈ L' := (hP.mem d).mpr ⟨hp, hoffP⟩
  have hoffApplied : st.sApplied.enabled d = false := by rw [hsP, hoffP]
  have hgFb := hcovFb.guarded hdL hoff (ha.range d hdL)
  have hgEnd := hcovEnd.guarded hdL' hoffApplied (hP.range d hdL')
  refine ⟨protStates st.wFb ++ A, R, E, C ++ protStates st.wEnd, ?_, ?_, hlen, hrel, hE⟩
  · have hw := congrArg protStates st.events
    simp only [protStates_append, st.draw.drawOnly.protStates, st.clear.drawOnly.protStates, hsplit,
      List.append_nil] at hw
    rw [hw]
    simp
  · exact (hgFb.append hA).append (hC.append hgEnd)

namespace Board

/-- The board after the settings that cloak everything are confirmed a second time. -/
def recloaked (env : Env) : Sys := cloakAll.after env table (cloaked env)

/-- A build in which the ninth allocation fails: the one for the region of the radio. -/
def imx6Short : Env := { imx6Release with malloc := fun n => decide (n ≠ 8) }

/-- The steps of the first call. -/
def cloakedEvents (env : Env) : List SysEvent := [⟨.smc cloakAll, cloakAll.log env table (booted env 0)⟩]

theorem steps_cloaked {env : Env} (hboot : Booted env (booted env 0))
    (h : (cloakEntry env table cloakAll.presses cloakAll.args).succeeds (booted env 0) = true) :
    Steps (sysStep env table) (booted env 0) (cloakedEvents env) (cloaked env) :=
  .cons (runs_after_set hboot.lock rfl rfl h) (.nil _)

theorem runs_recloaked {env : Env} (hlock : (cloaked env).cloak.lock = 0)
    (h : (cloakEntry env table cloakAll.presses cloakAll.args).succeeds (cloaked env) = true) :
    Code.Runs (cloakEntry env table cloakAll.presses cloakAll.args) (cloaked env)
      (cloakAll.log env table (cloaked env)) cloakAll.res (recloaked env) :=
  runs_after_set hlock rfl rfl h

theorem booted_short_ok : Booted imx6Short (booted imx6Short 0) := booted_of_runs (by decide +kernel)

end Board

theorem cloaked_but_for_window_board :
    Steps (sysStep imx6Release Board.table) (Board.booted imx6Release 0)
        (Board.cloakedEvents imx6Release) (Board.cloaked imx6Release) ∧
      (Board.cloaked imx6Release).enabled Board.wlan = false ∧
      (Board.recloaked imx6Release).enabled Board.wlan = false ∧
      ∃ A R E C,
        protStates (Board.cloakAll.log imx6Release Board.table (Board.cloaked imx6Release)) =
          A ++ R ++ E ++ C ∧
        (∀ u ∈ A ++ C, u.enabled Board.wlan = false ∧ Protected imx6Release u Board.wlan) ∧
        R.length = Board.wlan.info.csu.length + Board.wlan.info.resources.length ∧
        (∀ u ∈ R, u.enabled Board.wlan = false) ∧ ∀ u ∈ E, u.enabled Board.wlan = true := by
  have hsteps := Board.steps_cloaked Board.booted_release_ok (by decide +kernel)
  have hoff : (Board.cloaked imx6Release).enabled Board.wlan = false := by decide +kernel
  have hoff' : (Board.recloaked imx6Release).enabled Board.wlan = false := by decide +kernel
  exact ⟨hsteps, hoff, hoff', cloaked_but_for_window Board.booted_release_ok hsteps
    Board.cloakAll_confirmed (Board.runs_recloaked (by decide +kernel) (by decide +kernel)) rfl
    hoff hoff'⟩

/-- The radio is cloaked before and after the second call, and in between one of its CSLs is not
counted any more; where the allocation of its region failed, the region is missing from the first
step on. -/
theorem cloaked_transiently_released :
    (Steps (sysStep imx6Release Board.table) (Board.booted imx6Release 0)
        (Board.cloakedEvents imx6Release) (Board.cloaked imx6Release) ∧
      Code.Runs (cloakEntry imx6Release Board.table Board.cloakAll.presses Board.cloakAll.args)
        (Board.cloaked imx6Release)
        (Board.cloakAll.log imx6Release Board.table (Board.cloaked imx6Release))
        Board.cloakAll.res (Board.recloaked imx6Release) ∧
      (Board.cloaked imx6Release).enabled Board.wlan = false ∧
      (Board.recloaked imx6Release).enabled Board.wlan = false ∧
      ∃ u ∈ protStates (Board.cloakAll.log imx6Release Board.table (Board.cloaked imx6Release)),
        ∃ c ∈ Board.wlan.info.csu, ¬ 0 < u.csu.counts c.toNat) ∧
    (Steps (sysStep Board.imx6Short Board.table) (Board.booted Board.imx6Short 0)
        (Board.cloakedEvents Board.imx6Short) (Board.cloaked Board.imx6Short) ∧
      Code.Runs (cloakEntry Board.imx6Short Board.table Board.cloakAll.presses Board.cloakAll.args)
        (Board.cloaked Board.imx6Short)
        (Board.cloakAll.log Board.imx6Short Board.table (Board.cloaked Board.imx6Short))
        Board.cloakAll.res (Board.recloaked Board.imx6Short) ∧
      (Board.recloaked Board.imx6Short).enabled Board.wlan = false ∧
      ∃ u ∈ protStates (Board.cloakAll.log Board.imx6Short Board.table
          (Board.cloaked Board.imx6Short)),
        u.enabled Board.wlan = false ∧ (∀ c ∈ Board.wlan.info.csu, 0 < u.csu.counts c.toNat) ∧
        ∃ r ∈ Board.wlan.denials, r ∉ u.regions) := by
  refine ⟨⟨Board.steps_cloaked Board.booted_release_ok (by decide +kernel),
    Board.runs_recloaked (by decide +kernel) (by decide +kernel), by decide +kernel,
    by decide +kernel, by decide +kernel⟩,
    Board.steps_cloaked Board.booted_short_ok (by decide +kernel),
    Board.runs_recloaked (by decide +kernel) (by decide +kernel), by decide +kernel,
    by decide +kernel⟩

end SeCloak
