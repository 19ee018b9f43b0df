import SeCloak.Drivers.DtUndo
import SeCloak.Kernel.BootProps

/-!
# Deny regions without memory (`dt.c:402-421`)

`emu_add_region` allocates the region it adds, and `dt_enable_device` does not look at what it
returns: it goes on with the next resource, protects the CSLs and marks the device disabled. Only
where every allocation succeeds does the list hold a deny region for each resource
(`disable_failsClosed_iff`).
-/

namespace SeCloak
open Misc

section

variable {env : Env} {d : Device} {s s' : Sys} {w : List Event} {r : Bool}

/-- With memory for all of them, one region is added for each resource. -/
theorem addedDenials_of_malloc {rs : List Resource} {n : Nat}
    (h : ∀ i < rs.length, env.malloc (n + i) = true) : addedDenials env n rs = denialsOf rs := by
  induction rs generalizing n with
  | nil => rfl
  | cons res rs ih =>
    have hfirst : env.malloc n = true := h 0 (by simp)
    have hrest : addedDenials env (n + 1) rs = denialsOf rs := by
      refine ih fun i hi => ?_
      rw [show n + 1 + i = n + (i + 1) by omega]
      exact h (i + 1) (by simpa using hi)
    rw [addedDenials, if_pos hfirst, hrest, denialsOf, denialsOf, List.map_cons]

/-- The regions after an enabled device that can be protected was disabled. -/
theorem dtDisableDevice_regions (h : Code.Runs (dtEnableDevice env d false) s w r s')
    (hp : d.canProtect = true) (hen : s.enabled d = true) :
    s'.regions = (addedDenials env s.allocs d.info.resources).reverse ++ s.regions := by
  obtain ⟨-, ⟨hsame, -⟩ | ⟨-, s₁, s₂, hirq, hprot, hs'⟩⟩ := dtEnableDevice_runs h
  · rw [hen] at hsame
    cases hsame
  obtain ⟨-, hprot⟩ | ⟨hno, -⟩ := hprot
  · obtain ⟨-, hlines, -⟩ := dtEnableIrqs_runs hirq
    have hsame : s₁.regions = s.regions ∧ s₁.allocs = s.allocs := by
      rw [hlines.rest]
      exact ⟨rfl, rfl⟩
    obtain ⟨_, _, t, _, hadd, htake, -⟩ := Code.runs_bind.mp hprot
    obtain ⟨-, hregions⟩ := addDenials_runs hadd
    obtain ⟨hcsls, -⟩ := setCsls_runs htake
    have hs₂ : s₂.regions = t.regions := by rw [hcsls]
    have hlast : s'.regions = s₂.regions := by rw [hs']
    rw [hlast, hs₂, hregions, hsame.1, hsame.2]
  · rw [hp] at hno
    cases hno

/-! ## Failing closed -/

/-- `dt_enable_device` adds a region for each resource of the device, and one of the allocations
for them fails. -/
def Device.LacksMemory (d : Device) (env : Env) (s : Sys) : Prop :=
  d.canProtect = true ∧ s.enabled d = true ∧
    ∃ i < d.info.resources.length, env.malloc (s.allocs + i) = false

/-- What is expected of a call that disables a device, with the result it returns: a device that
gets disabled has its deny regions, and if one could not be added the call fails and changes
neither the accounts of the CSLs nor the regions nor the flag. -/
structure FailsClosed (env : Env) (d : Device) (s : Sys) (r : Bool) (s' : Sys) : Prop where
  denied : d.canProtect = true → s.enabled d = true → s'.enabled d = false →
    ∀ res ∈ d.info.resources, ⟨res.address.c0, res.size.c0, .denyAll⟩ ∈ s'.regions
  refused : d.LacksMemory env s →
    r = false ∧ s'.csu.counts = s.csu.counts ∧ s'.regions = s.regions ∧ s'.enabled d = s.enabled d

/-- A call that disables a device fails closed exactly if no allocation for its regions fails. -/
theorem disable_failsClosed_iff (h : Code.Runs (dtEnableDevice env d false) s w r s') :
    FailsClosed env d s r s' ↔ ¬ d.LacksMemory env s := by
  constructor
  · intro hclosed hlacks
    obtain ⟨hr, -⟩ := hclosed.refused hlacks
    obtain ⟨hres, -⟩ := dtEnableDevice_runs h
    -- the call returns that the device can be protected, whatever became of the regions
    rw [hres, hlacks.1] at hr
    cases hr
  · intro hmem
    refine ⟨fun hp hen _ res hres => ?_, fun hlacks => absurd hlacks hmem⟩
    have hall : ∀ i < d.info.resources.length, env.malloc (s.allocs + i) = true := by
      intro i hi
      by_contra hfail
      exact hmem ⟨hp, hen, i, hi, by simpa using hfail⟩
    rw [dtDisableDevice_regions h hp hen, addedDenials_of_malloc hall]
    have hin : ⟨res.address.c0, res.size.c0, .denyAll⟩ ∈ denialsOf d.info.resources :=
      List.mem_map.mpr ⟨res, hres, rfl⟩
    simp [hin]

end

namespace Board

/-- The board with memory for the first `n` allocations. -/
def imx6Memory (n : Nat) : Env := { imx6 with malloc := fun k => decide (k < n) }

/-- The radio after it was disabled, with memory for `n` allocations. -/
def wlanDenied (n : Nat) : Sys :=
  (dtEnableDevice (imx6Memory n) wlan false).after (booted (imx6Memory n) 0)

end Board

theorem disable_failsClosed_iff_wlan :
    FailsClosed (Board.imx6Memory 100) Board.wlan (Board.booted (Board.imx6Memory 100) 0) true
        (Board.wlanDenied 100) ↔
      ¬ Board.wlan.LacksMemory (Board.imx6Memory 100) (Board.booted (Board.imx6Memory 100) 0) := by
  obtain ⟨r, h⟩ := Code.runs_after (m := dtEnableDevice (Board.imx6Memory 100) Board.wlan false)
    (s := Board.booted (Board.imx6Memory 100) 0) (by decide +kernel)
  have hr : r = true := by
    rw [(dtEnableDevice_runs h).1]
    decide +kernel
  rw [← hr]
  exact disable_failsClosed_iff h

/-- The board runs out of memory after boot: the radio is marked disabled without its region, and
the call returns that it is protected. -/
theorem disabled_without_region :
    Booted (Board.imx6Memory 7) (Board.booted (Board.imx6Memory 7) 0) ∧
      (∃ w, Code.Runs (dtEnableDevice (Board.imx6Memory 7) Board.wlan false)
        (Board.booted (Board.imx6Memory 7) 0) w true (Board.wlanDenied 7)) ∧
      Board.wlan.canProtect = true ∧
      (Board.booted (Board.imx6Memory 7) 0).enabled Board.wlan = true ∧
      (Board.wlanDenied 7).enabled Board.wlan = false ∧
      ⟨0x02190000, 0x4000, .denyAll⟩ ∉ (Board.wlanDenied 7).regions ∧
      ¬ FailsClosed (Board.imx6Memory 7) Board.wlan (Board.booted (Board.imx6Memory 7) 0) true
        (Board.wlanDenied 7) := by
  obtain ⟨r, h⟩ := Code.runs_after (m := dtEnableDevice (Board.imx6Memory 7) Board.wlan false)
    (s := Board.booted (Board.imx6Memory 7) 0) (by decide +kernel)
  have hp : Board.wlan.canProtect = true := by decide
  have hon : (Board.booted (Board.imx6Memory 7) 0).enabled Board.wlan = true := by decide +kernel
  have hoff : (Board.wlanDenied 7).enabled Board.wlan = false := by decide +kernel
  have hnone : ⟨0x02190000, 0x4000, .denyAll⟩ ∉ (Board.wlanDenied 7).regions := by decide +kernel
  have hr : r = true := (dtEnableDevice_runs h).1.trans hp
  rw [hr] at h
  refine ⟨Board.booted_of_runs (by decide +kernel), ⟨_, h⟩, hp, hon, hoff, hnone, fun hclosed => ?_⟩
  exact hnone (hclosed.denied hp hon hoff ⟨⟨0x02190000, 0, 0, 0⟩, ⟨0x4000, 0, 0, 0⟩⟩ (by decide))

end SeCloak
