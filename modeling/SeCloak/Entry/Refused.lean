import SeCloak.Drivers.FbParams
import SeCloak.Emulation.Security
import SeCloak.Entry.System

/-!
# A request that the user refuses

On the way to the answer a `CLOAK_SET` takes the CSL of the display, adds a region, programs the
display and registers a key handler. All of this is undone before it returns, so that a refused
request leaves nothing behind but the picture in the framebuffer. The one exception is the field of
the CSL of the display: it is written when the display is taken and given back, and so it is
restored only if it still showed its counter.
-/

namespace SeCloak
open Misc

/-- The state of the policy and of its drivers is the same. -/
structure Sys.Same (s s' : Sys) : Prop where
  enabled : s'.enabled = s.enabled
  counts : s'.csu.counts = s.csu.counts
  regions : s'.regions = s.regions
  cpmem : s'.fb.cpmem = s.fb.cpmem
  chip : s'.chip = s.chip
  secureMask : ∀ n, (s'.gpio.port n).map Port.secureMask = (s.gpio.port n).map Port.secureMask
  keys : s'.keys = s.keys
  prevSettings : s'.cloak.prevSettings = s.cloak.prevSettings

namespace SetStages

variable {env : Env} {t : DeviceTable} {presses : List Word} {a1 : Word} {s s' : Sys}
  {w : List Event} (h : SetStages env t presses a1 s w s')
include h

theorem applied_of_refused (hno : cloakAnswer presses ≠ .allow) : h.sApplied = h.sAnswer := by
  have happly := h.apply
  rw [if_neg hno] at happly
  exact happly.2

/-- Between taking the display and giving it back, a refused request only has its handler in the
list of the key driver. -/
theorem refused_middle (hno : cloakAnswer presses ≠ .allow) (hready : s.KeysReady) :
    h.sReleased = { h.sFb with
      secpwr := h.sReleased.secpwr
      fb := { h.sFb.fb with mem := h.sReleased.fb.mem }
      cloak := { h.sFb.cloak with confirmStatus := h.sReleased.cloak.confirmStatus } } := by
  obtain ⟨k, hk, -, hrel⟩ := h.keys_released hready
  obtain ⟨k', hkeys, -⟩ := h.keys_acquired hready
  have hfb : h.sFb.keys = some k := by
    rw [(fbAcquire_fbOnly h.acquireFb).rest]
    exact hk
  rw [hrel, h.clear.rest, h.applied_of_refused hno, h.answer.rest, h.draw.rest, hkeys]
  simp only [← hfb]

/-- A refused request. -/
theorem refused_same (hno : cloakAnswer presses ≠ .allow) (hready : s.KeysReady)
    (hmalloc : ∀ n, env.malloc n = true) :
    s.Same s' ∧ (s.csu.Ok → s'.csu = s.csu) := by
  have hmid := h.refused_middle hno hready
  obtain ⟨hinfo, -, hcpmem, hregions, hcsu⟩ := fbAcquire_stages h.acquireFb
  have hfb := (fbAcquire_fbOnly h.acquireFb).rest
  have hfb' := (fbRelease_fbOnly h.releaseFb).rest
  have hrel := h.releaseFb
  have hbuf := h.buffer
  rw [Option.some.inj hinfo] at hrel hbuf
  have hout : ∀ i, ¬ FbWord i → h.sReleased.fb.cpmem i = s.fb.cpmem i := by
    intro i hi
    rw [hmid]
    exact hcpmem i hi
  obtain ⟨hcpmem', hcsu', hregions'⟩ := fbRelease_stages hbuf hout hrel
  have hcsu'' : s'.csu = (s.csu.setCsl fbCsl.toNat true).setCsl fbCsl.toNat false := by
    rw [hcsu', hmid, ← hcsu]
  have hbase : h.sReleased.fb.basePaddr = s.fb.basePaddr := by
    rw [hmid, hfb]
  refine ⟨⟨?_, ?_, ?_, hcpmem', ?_, fun n => ?_, ?_, ?_⟩, fun hok => ?_⟩
  · rw [hfb', hmid, hfb]
  · rw [hcsu'']
    exact setCsl_twice_counts _ _
  · rw [hregions', hbase, hmid]
    dsimp only
    rw [hregions, if_pos (hmalloc _), List.erase_cons_head]
  · rw [hfb', hmid, hfb]
  · rw [hfb', hmid, hfb]
  · rw [hfb', hmid, hfb]
  · rw [hfb', hmid, hfb]
  · rw [hcsu'']
    exact hok.setCsl_twice (by decide)

end SetStages

/-- A `CLOAK_SET` that the user refuses, in any state that the system reaches, returns OK and leaves
policy and drivers as they were; so it does the CSL registers, unless an emulated store has reached
them before. -/
theorem refused_unchanged {env : Env} {t : DeviceTable} {s₀ s s' : Sys} {xs : List SysEvent}
    {c : SmcCall} {w : List Event} (hmalloc : ∀ n, env.malloc n = true) (hboot : Booted env s₀)
    (h : Steps (sysStep env t) s₀ xs s) (hset : c.args.a0 = opteeSmcCloakSet)
    (hdeny : cloakAnswer c.presses = .deny)
    (hcall : Code.Runs (cloakEntry env t c.presses c.args) s w c.res s') :
    c.res = { c.args with a0 := opteeSmcReturnOk } ∧ s.Same s' ∧
      ((∀ x ∈ xs, x.Clean) → s'.csu.csl = s.csu.csl) := by
  have hs := steps_sound hboot h
  have hstep : smcStep env t s c s' := ⟨w, hcall⟩
  obtain ⟨hres, w', s₁, ⟨st⟩, rfl⟩ := smcStep_set hs.between.lock hset hstep
  have hno : cloakAnswer c.presses ≠ .allow := by
    rw [hdeny]
    decide
  obtain ⟨hsame, hcsu⟩ := st.refused_same hno hs.between.keys hmalloc
  refine ⟨hres, ⟨hsame.enabled, hsame.counts, hsame.regions, hsame.cpmem, hsame.chip,
    hsame.secureMask, hsame.keys, hsame.prevSettings⟩, fun hclean => ?_⟩
  obtain ⟨L, ha⟩ := hs.settled.balanced
  exact congrArg Csu.csl (hcsu (ha.ok hclean))

/-- A request that is refused with the back key. -/
def Board.declined : SmcCall :=
  ⟨[keyBack], ⟨opteeSmcCloakSet, 0, 0, 0, 0, 0, 0, 0⟩, ⟨opteeSmcReturnOk, 0, 0, 0, 0, 0, 0, 0⟩⟩

theorem refused_unchanged_board :
    cloakAnswer Board.declined.presses = .deny ∧
      Board.declined.res = { Board.declined.args with a0 := opteeSmcReturnOk } ∧
      (Board.booted imx6 0).Same (Board.declined.after imx6 Board.table (Board.booted imx6 0)) ∧
      ((∀ x ∈ ([] : List SysEvent), x.Clean) →
        (Board.declined.after imx6 Board.table (Board.booted imx6 0)).csu.csl =
          (Board.booted imx6 0).csu.csl) :=
  ⟨rfl, refused_unchanged (fun _ => rfl) Board.booted_ok (.nil _) rfl rfl
    (runs_after_set Board.booted_ok.lock rfl rfl (by decide +kernel))⟩

/-- The non-secure world stores zero to the register with the CSL of the display. -/
def Board.zeroDisplay : Kernel NsecCtx := emuHandle imx6 (ctxWith 0) 0x008 0x021C0078 0x10000000

def Board.displayZeroed : Sys := Board.zeroDisplay.after Board.armed

/-- After that a refused request leaves the CSL of the display open. -/
theorem refused_rewrites_csl :
    Booted imx6 Board.armed ∧
      (∃ ctx', Steps (sysStep imx6 Board.table) Board.armed
        [⟨.abort (ctxWith 0) ctx' 0x008 0x021C0078 0x10000000,
          (Board.zeroDisplay Board.armed).events⟩] Board.displayZeroed) ∧
      smcStep imx6 Board.table Board.displayZeroed Board.declined
        (Board.declined.after imx6 Board.table Board.displayZeroed) ∧
      cloakAnswer Board.declined.presses = .deny ∧ Board.displayZeroed.csu.csl 30 = 0 ∧
      (Board.declined.after imx6 Board.table Board.displayZeroed).csu.csl 30 = 0x00FF0000 := by
  obtain ⟨ctx', hattack⟩ :=
    Code.runs_after (m := Board.zeroDisplay) (s := Board.armed) (by decide +kernel)
  refine ⟨Board.armed_ok, ⟨ctx', .cons hattack (.nil _)⟩,
    ⟨_, runs_after_set (by decide +kernel) rfl rfl (by decide +kernel)⟩, rfl, by decide +kernel,
    by decide +kernel⟩

end SeCloak
