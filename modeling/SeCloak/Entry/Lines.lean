import SeCloak.Entry.SetProps

/-!
# Interrupt lines after settings

Lines have no reference counts. A confirmed `CLOAK_SET` first enables every device and so every
line that a disabled device lists, and then disables the lines of the devices it disables; a line
that several devices share ends disabled if any of them does.
-/

namespace SeCloak
open Misc

theorem enableClasses_switched {env : Env} {t : DeviceTable} {classes : List (CString × Bool)} :
    Code.Within (Code.forEach (fun c => dtEnableClass env t c.1 true) classes)
      (fun s _ s' => Switched true s s') :=
  within_enableClasses (switched_closed true) fun _ => dtEnableDevice_switched

theorem disableClasses_switched {env : Env} {t : DeviceTable} {classes : List (CString × Bool)} :
    Code.Within (Code.forEach
      (fun c => Code.runIf (c.2 = false) (dtEnableClass env t c.1 false)) classes)
      (fun s _ s' => Switched false s s') :=
  within_disableClasses (switched_closed false) fun _ => dtEnableDevice_switched

/-- The lines after `s'` was reached from `s`: a line of a disabled device is disabled and
secured, a line of a device that was disabled before and of enabled devices only is enabled and
unsecured. -/
structure LinesFollow (s s' : Sys) : Prop where
  off : ∀ l, (∃ d, s'.enabled d = false ∧ l ∈ d.lines) → s'.line l = (false, true)
  on : ∀ l, (∃ d, s.enabled d = false ∧ l ∈ d.lines) →
    (∀ d, l ∈ d.lines → s'.enabled d = true) → s'.line l = (true, false)

/-- All devices are enabled, then some are disabled. -/
theorem linesFollow_of_switched {s s₁ s₂ : Sys} (h₁ : Switched true s s₁)
    (hall : ∀ d, s₁.enabled d = true) (h₂ : Switched false s₁ s₂) : LinesFollow s s₂ where
  off l := by
    rintro ⟨d, hd, hl⟩
    exact h₂.switched d (by simp [hall d]) hd l hl
  on l := by
    rintro ⟨d, hd, hl⟩ hon
    have hline : s₁.line l = (true, false) := h₁.switched d (by simp [hd]) (hall d) l hl
    rcases h₂.kept l with hkept | ⟨-, e, -, he, hle⟩
    · rw [hkept, hline]
    · rw [hon e hle] at he
      cases he

theorem cloakApply_lines {env : Env} {t : DeviceTable} {a1 : Word} {s s' : Sys} {w : List Event}
    {u : Unit} (hs : s.Explained t)
    (h : Code.Runs (cloakApply env t (cloakVerdicts a1)) s w u s') : LinesFollow s s' := by
  obtain ⟨w₁, _, s₁, w₂, h₁, h₂, rfl⟩ := Code.runs_bind.mp h
  exact linesFollow_of_switched (enableClasses_switched h₁) (enableClasses_all hs h₁)
    (disableClasses_switched h₂)

/-- The state between two confirmed calls. -/
structure Sys.Between (s : Sys) (t : DeviceTable) : Prop where
  lock : s.cloak.lock = 0
  explained : s.Explained t
  keys : s.KeysReady

theorem smcStep_lines {env : Env} {t : DeviceTable} {s s' : Sys} {c : SmcCall}
    (hs : s.Between t) (hc : c.Confirmed) (h : smcStep env t s c s') :
    LinesFollow s s' ∧ s'.Between t := by
  obtain ⟨-, hlock', hexpl'⟩ := smcStep_confirmed hs.lock hs.explained hc h
  obtain ⟨-, w, s₁, ⟨st⟩, rfl⟩ := smcStep_set hs.lock hc.1 h
  have hready : s.locked.KeysReady := hs.keys
  have happly := st.apply
  rw [if_pos hc.2] at happly
  obtain ⟨sP, hrun, hsP⟩ := happly
  have hbefore : st.sAnswer.enabled = s.enabled := st.enabled_before
  have hexpl : st.sAnswer.Explained t := by
    rw [Sys.Explained, hbefore]
    exact hs.explained
  have hfollow := cloakApply_lines hexpl hrun
  have hafter : s₁.enabled = sP.enabled := by rw [st.enabled_after, hsP]
  have hline : s₁.line = sP.line := by
    rw [st.line_after hready, hsP]
    exact line_congr rfl rfl
  refine ⟨⟨fun l => ?_, fun l => ?_⟩, hlock', hexpl', st.keys_ready hready⟩
  · change (∃ d, s₁.enabled d = false ∧ l ∈ d.lines) → s₁.line l = (false, true)
    rw [hafter, hline]
    exact hfollow.off l
  · change _ → (∀ d, l ∈ d.lines → s₁.enabled d = true) → s₁.line l = (true, false)
    rw [hafter, hline, ← hbefore]
    exact hfollow.on l

/-- After each confirmed call from boot, the lines follow the flags. -/
theorem lines_follow_settings {env : Env} {t : DeviceTable} {s₀ s s' : Sys} {calls : List SmcCall}
    {last : SmcCall} (hboot : Booted env s₀) (hconf : ∀ c ∈ calls ++ [last], c.Confirmed)
    (h : Steps (smcStep env t) s₀ calls s) (hlast : smcStep env t s last s') (l : Line) :
    ((∃ d, s'.enabled d = false ∧ l ∈ d.lines) →
        s'.lineEnabled l = false ∧ s'.lineSecured l = true) ∧
      ((∃ d, s.enabled d = false ∧ l ∈ d.lines) → (∀ d, l ∈ d.lines → s'.enabled d = true) →
        s'.lineEnabled l = true ∧ s'.lineSecured l = false) := by
  have hs : s.Between t := by
    refine h.invariant (I := fun s => s.Between t) ?_
      ⟨hboot.lock, explained_of_all_enabled hboot.enabled, hboot.keys⟩
    intro c hc s s' hstep hs
    exact (smcStep_lines hs (hconf c (List.mem_append_left _ hc)) hstep).2
  obtain ⟨hfollow, -⟩ := smcStep_lines hs (hconf last (by simp)) hlast
  refine ⟨fun hoff => ?_, fun hwas hon => ?_⟩
  · exact Prod.mk.inj (hfollow.off l hoff)
  · exact Prod.mk.inj (hfollow.on l hwas hon)

/-- Settings that allow the first class only, confirmed. -/
def Board.allowWifi : SmcCall :=
  ⟨[keyHomepage], ⟨opteeSmcCloakSet, 0x40, 0, 0, 0, 0, 0, 0⟩,
    ⟨opteeSmcReturnOk, 0x40, 0, 0, 0, 0, 0, 0⟩⟩

/-- The radio was cloaked and is allowed again. -/
def Board.uncloaked : Sys :=
  Board.allowWifi.after imx6Release Board.table (Board.cloaked imx6Release)

theorem lines_follow_board :
    Board.allowWifi.Confirmed ∧
      smcStep imx6Release Board.table (Board.cloaked imx6Release) Board.allowWifi Board.uncloaked ∧
      ((∃ d, Board.uncloaked.enabled d = false ∧ Line.gic 54 ∈ d.lines) →
        Board.uncloaked.lineEnabled (.gic 54) = false ∧
          Board.uncloaked.lineSecured (.gic 54) = true) ∧
      ((∃ d, (Board.cloaked imx6Release).enabled d = false ∧ Line.gic 54 ∈ d.lines) →
        (∀ d, Line.gic 54 ∈ d.lines → Board.uncloaked.enabled d = true) →
        Board.uncloaked.lineEnabled (.gic 54) = true ∧
          Board.uncloaked.lineSecured (.gic 54) = false) := by
  have hboot := Board.booted_release_ok
  have hfirst : smcStep imx6Release Board.table (Board.booted imx6Release 0) Board.cloakAll
      (Board.cloaked imx6Release) := ⟨_, runs_after_set hboot.lock rfl rfl (by decide +kernel)⟩
  have hlast : smcStep imx6Release Board.table (Board.cloaked imx6Release) Board.allowWifi
      Board.uncloaked := ⟨_, runs_after_set (by decide +kernel) rfl rfl (by decide +kernel)⟩
  have hconf : ∀ c ∈ [Board.cloakAll] ++ [Board.allowWifi], c.Confirmed := by
    intro c hc
    rcases List.mem_cons.mp hc with rfl | hc
    · exact Board.cloakAll_confirmed
    · rw [List.mem_singleton.mp hc]
      exact ⟨rfl, rfl⟩
  exact ⟨⟨rfl, rfl⟩, hlast,
    lines_follow_settings hboot hconf (.cons hfirst (.nil _)) hlast (.gic 54)⟩

end SeCloak
