import SeCloak.Emulation.Security
import SeCloak.Entry.System

/-!
# Devices of denied classes

After a confirmed `CLOAK_SET` a device of a class that is not allowed is disabled up to the first
ancestor that can be protected, which is then protected. A device without such an ancestor is only
disabled, together with everything up to the root, and the call does not tell.
-/

namespace SeCloak
open Misc

/-- The device is cloaked as far as the tree allows it: the first ancestor that can be protected
is disabled and its CSLs are counted, and their fields say so if the registers are `clean`. -/
def Sys.Cloaks (s : Sys) (clean : Prop) (d : Device) : Prop :=
  match d.guard with
  | some p => p.canProtect = true ∧ s.enabled p = false ∧
      (∀ c ∈ p.info.csu, 0 < s.csu.counts c.toNat) ∧
      (clean → ∀ c ∈ p.info.csu, s.csu.field c.toNat = 0x33)
  | none => ∀ e ∈ d.ancestors, s.enabled e = false

/-- Where the accounts balance, disabling the chain of a device cloaks it. -/
theorem cloaks_of_chain {env : Env} {clean : Prop} {X : List Int} {s : Sys} {d : Device}
    (hb : Balanced env clean X s) (hoff : ∀ e ∈ d.chain, s.enabled e = false) :
    s.Cloaks clean d := by
  unfold Sys.Cloaks
  cases hguard : d.guard with
  | none =>
    rw [chain_of_no_guard hguard] at hoff
    exact hoff
  | some p =>
    have hp := guard_canProtect hguard
    have hpoff := hoff p (guard_mem_chain hguard)
    exact ⟨hp, hpoff, hb.shielded hp hpoff⟩

/-- After every confirmed call in a reachable state, every device that carries a denied class is
cloaked as far as the tree allows it, and the call returns OK in any case. -/
theorem denied_cloaked {env : Env} {t : DeviceTable} {s₀ s s' : Sys} {xs : List SysEvent}
    {c : SmcCall} {w : List Event} (hboot : Booted env s₀) (h : Steps (sysStep env t) s₀ xs s)
    (hconf : c.Confirmed) (hcall : Code.Runs (cloakEntry env t c.presses c.args) s w c.res s') :
    c.res.a0 = opteeSmcReturnOk ∧ ∀ d ∈ t.devices,
      (∃ k ∈ cloakClasses, k.allow c.args.a1 = false ∧ k.name ∈ d.info.classes) →
        s'.Cloaks (∀ x ∈ xs, x.Clean) d := by
  have hs := steps_sound hboot h
  have hstep : smcStep env t s c s' := ⟨w, hcall⟩
  obtain ⟨hres, w', s₁, ⟨st⟩, hs'⟩ := smcStep_set hs.between.lock hconf.1 hstep
  have hsound : Sound env t (∀ x ∈ xs, x.Clean) s' := by
    rw [hs']
    exact st.sound hs
  obtain ⟨hiff, -⟩ := smcStep_confirmed hs.between.lock hs.between.explained hconf hstep
  refine ⟨by rw [hres], fun d hd hk => cloaks_of_chain hsound.settled.balanced fun e he => ?_⟩
  exact (hiff e).mpr ⟨d, mem_deniedDevices.mpr ⟨hd, hk⟩, he⟩

theorem denied_cloaked_board :
    (∃ k ∈ cloakClasses, k.allow 0 = false ∧ k.name ∈ Board.wlan.info.classes) ∧
      Board.cloakAll.res.a0 = opteeSmcReturnOk ∧ ∀ d ∈ Board.table.devices,
        (∃ k ∈ cloakClasses, k.allow 0 = false ∧ k.name ∈ d.info.classes) →
          (Board.cloaked imx6).Cloaks (∀ x ∈ ([] : List SysEvent), x.Clean) d :=
  ⟨by decide +kernel, denied_cloaked Board.booted_ok (.nil _) Board.cloakAll_confirmed
    (runs_after_set Board.booted_ok.lock rfl rfl (by decide +kernel))⟩

/-- The non-secure world stores all ones to the CSL register of the port, then all is cloaked. -/
def Board.attacked : Sys := (Board.trap 0x021C0004).after Board.armed

def Board.attackedCloaked : Sys := Board.cloakAll.after imx6 Board.table Board.attacked

/-- A call returns OK although a device of a denied class has no ancestor that can be protected;
and after an emulated store to the CSU, the field of a CSL of a device of a denied class is not
0x33. -/
theorem denied_not_protected :
    (smcStep imx6 Board.table (Board.booted imx6 0) Board.cloakAll (Board.cloaked imx6) ∧
      Board.cloakAll.Confirmed ∧ Board.cloakAll.res.a0 = opteeSmcReturnOk ∧
      Board.modem ∈ Board.table.devices ∧
      (∃ k ∈ cloakClasses, k.allow 0 = false ∧ k.name ∈ Board.modem.info.classes) ∧
      ∀ p ∈ Board.modem.ancestors, p.canProtect = false) ∧
    Booted imx6 Board.armed ∧ (∃ ctx', Steps (sysStep imx6 Board.table) Board.armed
        [⟨.abort (ctxWith 0xFFFFFFFF) ctx' 0x008 0x021C0004 0x10000000,
          (Board.trap 0x021C0004 Board.armed).events⟩] Board.attacked) ∧
      smcStep imx6 Board.table Board.attacked Board.cloakAll Board.attackedCloaked ∧
      Board.bluetooth ∈ Board.table.devices ∧
      (∃ k ∈ cloakClasses, k.allow 0 = false ∧ k.name ∈ Board.bluetooth.info.classes) ∧
      ∀ p ∈ Board.bluetooth.ancestors, p.canProtect = true →
        ∃ c ∈ p.info.csu, Board.attackedCloaked.csu.field c.toNat ≠ 0x33 := by
  obtain ⟨ctx', hattack⟩ :=
    Code.runs_after (m := Board.trap 0x021C0004) (s := Board.armed) (by decide +kernel)
  refine ⟨⟨Board.step_cloaked, Board.cloakAll_confirmed, rfl, by decide +kernel,
    by decide +kernel, by decide +kernel⟩, Board.armed_ok, ⟨ctx', .cons hattack (.nil _)⟩,
    ⟨_, runs_after_set (by decide +kernel) rfl rfl (by decide +kernel)⟩, by decide +kernel,
    by decide +kernel, by decide +kernel⟩

end SeCloak
