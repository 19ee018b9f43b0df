import SeCloak.Entry.Settings

/-!
# Lines and accounts over a `CLOAK_SET`

With the secure power key registered, the key driver does not touch the interrupt controllers
during a `CLOAK_SET`, so that the lines only change where the settings are applied. Framebuffer
and devices take and give back their CSLs, and the accounts balance again at the end.
-/

namespace SeCloak
open Misc

theorem cloakApply_balanced {env : Env} {clean : Prop} {X : List Int} {t : DeviceTable}
    {classes : List (CString × Bool)} :
    Code.Within (cloakApply env t classes) (Code.Preserves (Balanced env clean X)) :=
  within_cloakApply (Code.preserves_closed _) fun _ _ => dtEnableDevice_balanced

/-! ## Ports -/

/-- The same ports with the same identity. -/
structure SamePorts (s s' : Sys) : Prop where
  allocated : s'.gpio.allocated = s.gpio.allocated
  ports : s'.gpio.ports = s.gpio.ports
  fixed : ∀ n, (s'.gpio.port n).map Port.fixed = (s.gpio.port n).map Port.fixed

theorem SamePorts.trans {s s' s'' : Sys} (h : SamePorts s s') (h' : SamePorts s' s'') :
    SamePorts s s'' where
  allocated := h'.allocated.trans h.allocated
  ports := h'.ports.trans h.ports
  fixed n := (h'.fixed n).trans (h.fixed n)

theorem samePorts_of_eq {s s' : Sys} (h : s'.gpio = s.gpio) : SamePorts s s' := by
  refine ⟨?_, ?_, fun n => ?_⟩ <;> rw [h]

theorem InputOnly.samePorts {s s' : Sys} {w : List Event} (h : InputOnly s w s') : SamePorts s s' := by
  refine ⟨?_, ?_, h.fixed⟩ <;> rw [h.rest]

theorem PolicyOnly.samePorts {s s' : Sys} (h : PolicyOnly s s') : SamePorts s s' := by
  refine ⟨?_, ?_, h.fixed⟩ <;> rw [h.rest]

theorem FbOnly.samePorts {s s' : Sys} (h : FbOnly s s') : SamePorts s s' :=
  samePorts_of_eq (by rw [h.rest])

namespace SetStages

variable {env : Env} {t : DeviceTable} {presses : List Word} {a1 : Word} {s s' : Sys}
  {w : List Event} (h : SetStages env t presses a1 s w s')
include h

/-! ## Keys -/

/-- While the settings are applied, both handlers are registered. -/
theorem keys_acquired (hready : s.KeysReady) :
    ∃ k, h.sKeys = { h.sFb with keys := some k } ∧ k.handlers = [.cloak, .secpwr] := by
  have hfb := (fbAcquire_fbOnly h.acquireFb).rest
  have hready' : ∀ k, h.sFb.keys = some k → k.Ready := by
    intro k hk
    rw [hfb] at hk
    exact hready k hk
  obtain ⟨-, k, -, -, hs⟩ := gpioKeysAcquire_ready hready' h.acquireKeys
  exact ⟨{ k with handlers := [.cloak, .secpwr] }, hs, rfl⟩

theorem keys_applied : h.sCleared.keys = h.sKeys.keys := by
  obtain ⟨hpol, -⟩ := h.applied_policyOnly
  have h₁ : h.sAnswer.keys = h.sKeys.keys := by rw [h.answer.rest, h.draw.rest]
  have h₂ := congrArg Sys.keys hpol.rest
  rw [h.clear.rest, ← h₁]
  exact h₂

/-- The key driver before and after the call. -/
theorem keys_released (hready : s.KeysReady) :
    ∃ k, s.keys = some k ∧ k.handlers = [.secpwr] ∧
      h.sReleased = { h.sCleared with keys := some k } := by
  have hfb := (fbAcquire_fbOnly h.acquireFb).rest
  have hkeys : h.sFb.keys = s.keys := by rw [hfb]
  have hready' : ∀ k, h.sFb.keys = some k → k.Ready := by
    intro k hk
    exact hready k (hkeys.symm.trans hk)
  obtain ⟨-, k, hk, hhs, hs⟩ := gpioKeysAcquire_ready hready' h.acquireKeys
  have hcleared : h.sCleared.keys = some { k with handlers := [.cloak, .secpwr] } := by
    rw [h.keys_applied, hs]
  obtain ⟨-, hrel⟩ := gpioKeysRelease_ready hcleared rfl h.releaseKeys
  have hsame : ({ k with handlers := [.secpwr] } : KeysData) = k := by rw [← hhs]
  refine ⟨k, hkeys.symm.trans hk, hhs, ?_⟩
  rw [hrel]
  simp only [hsame]

/-- The call gives the keys back. -/
theorem keys_same (hready : s.KeysReady) : s'.keys = s.keys := by
  obtain ⟨k, hk, -, hs⟩ := h.keys_released hready
  have hkeys := congrArg Sys.keys (fbRelease_fbOnly h.releaseFb).rest
  rw [hkeys, hs, hk]

/-- The key driver is ready for the next call. -/
theorem keys_ready (hready : s.KeysReady) : s'.KeysReady := by
  unfold Sys.KeysReady
  rw [h.keys_same hready]
  exact hready

theorem chip_same (hready : s.KeysReady) : s'.chip = s.chip := by
  obtain ⟨k, -, -, hs⟩ := h.keys_released hready
  obtain ⟨k', hs', -⟩ := h.keys_acquired hready
  obtain ⟨hpol, -⟩ := h.applied_policyOnly
  have hfb := (fbAcquire_fbOnly h.acquireFb).rest
  have happlied := congrArg Sys.chip hpol.rest
  have hchip := congrArg Sys.chip (fbRelease_fbOnly h.releaseFb).rest
  rw [hchip, hs]
  change h.sCleared.chip = s.chip
  rw [h.clear.rest]
  refine Eq.trans happlied ?_
  change h.sAnswer.chip = s.chip
  rw [h.answer.rest, h.draw.rest, hs', hfb]

/-! ## Lines -/

theorem line_after (hready : s.KeysReady) : s'.line = h.sApplied.line := by
  obtain ⟨k, -, -, hs⟩ := h.keys_released hready
  have hfb := (fbRelease_fbOnly h.releaseFb).rest
  have hgic : h.sReleased.gic = h.sApplied.gic := by rw [hs, h.clear.rest]
  have hgpio : h.sReleased.gpio = h.sApplied.gpio := by rw [hs, h.clear.rest]
  refine line_congr ?_ ?_
  · exact (congrArg Sys.gic hfb).trans hgic
  · exact (congrArg Sys.gpio hfb).trans hgpio

/-! ## Accounts -/

theorem samePorts : SamePorts s s' := by
  obtain ⟨hpol, -⟩ := h.applied_policyOnly
  have h₁ := (fbAcquire_fbOnly h.acquireFb).samePorts
  have h₂ := (gpioKeysAcquire_inputOnly _ _ h.acquireKeys).samePorts
  have h₃ : SamePorts h.sKeys h.sAnswer := samePorts_of_eq (by rw [h.answer.rest, h.draw.rest])
  have h₄ : SamePorts h.sAnswer h.sApplied := ⟨hpol.samePorts.1, hpol.samePorts.2, hpol.fixed⟩
  have h₅ : SamePorts h.sApplied h.sCleared := samePorts_of_eq (by rw [h.clear.rest])
  have h₆ := (gpioKeysRelease_inputOnly _ h.releaseKeys).samePorts
  have h₇ := (fbRelease_fbOnly h.releaseFb).samePorts
  exact h₁.trans (h₂.trans (h₃.trans (h₄.trans (h₅.trans (h₆.trans h₇)))))

/-- Up to the answer only the framebuffer takes a CSL, and the devices keep theirs. -/
theorem accounts_before {clean : Prop} {X : List Int} {L : List Device}
    (ha : Accounts env clean X s L) :
    Accounts env clean (fbCsl :: X) h.sAnswer L ∧ Covered env L s.enabled h.wFb := by
  obtain ⟨ha₁, hcov⟩ := fbAcquire_accounts h.acquireFb ha
  have hkeys := (gpioKeysAcquire_inputOnly _ _ h.acquireKeys).rest
  have ha₂ : Accounts env clean (fbCsl :: X) h.sKeys L :=
    ha₁.congr (by rw [hkeys]) (by rw [hkeys]) (by rw [hkeys]) (Nat.le_of_eq (by rw [hkeys]))
  have ha₃ := ha₂.draw h.draw.drawOnly
  refine ⟨ha₃.congr ?_ ?_ ?_ (Nat.le_of_eq ?_), hcov⟩
  all_goals rw [h.answer.rest]

/-- At the end the framebuffer gives its CSL back, and the devices keep theirs. -/
theorem accounts_after {clean : Prop} {X : List Int} {L : List Device}
    (ha : Accounts env clean (fbCsl :: X) h.sApplied L) :
    Accounts env clean X s' L ∧ Covered env L h.sApplied.enabled h.wEnd := by
  have ha₁ := ha.draw h.clear.drawOnly
  have hkeys := (gpioKeysRelease_inputOnly _ h.releaseKeys).rest
  have ha₂ : Accounts env clean (fbCsl :: X) h.sReleased L :=
    ha₁.congr (by rw [hkeys]) (by rw [hkeys]) (by rw [hkeys]) (Nat.le_of_eq (by rw [hkeys]))
  obtain ⟨ha₃, hcov⟩ := fbRelease_accounts h.buffer h.releaseFb ha₂
  have hen : h.sReleased.enabled = h.sApplied.enabled := by rw [hkeys, h.clear.rest]
  exact ⟨ha₃, hen ▸ hcov⟩

theorem balanced {clean : Prop} {X : List Int} (hs : Balanced env clean X s) :
    Balanced env clean X s' := by
  obtain ⟨L, ha⟩ := hs
  obtain ⟨hb, -⟩ := h.accounts_before ha
  have happly := h.apply
  have happlied : Balanced env clean (fbCsl :: X) h.sApplied := by
    by_cases hallow : cloakAnswer presses = .allow
    · rw [if_pos hallow] at happly
      obtain ⟨sP, hrun, hsP⟩ := happly
      obtain ⟨L', hP⟩ := cloakApply_balanced hrun ⟨L, hb⟩
      rw [hsP]
      exact ⟨L', hP.congr rfl rfl rfl (Nat.le_refl _)⟩
    · rw [if_neg hallow] at happly
      rw [happly.2]
      exact ⟨L, hb⟩
  obtain ⟨L', ha'⟩ := happlied
  exact ⟨L', (h.accounts_after ha').1⟩

theorem settled {clean : Prop} (hs : Settled env clean [] s) : Settled env clean [] s' :=
  hs.congr h.samePorts.allocated h.samePorts.ports h.samePorts.fixed (h.balanced hs.balanced)

end SetStages

end SeCloak
