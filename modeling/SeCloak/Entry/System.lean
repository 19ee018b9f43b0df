import SeCloak.Emulation.HandleProps
import SeCloak.Entry.Lines

/-!
# The running system

After boot the kernel runs when the non-secure world calls it, when an access of the non-secure
world aborts, and on interrupts. `Sound` is the invariant of all of them: the flags come from
settings, the key driver is ready, and the accounts of CSLs and regions balance. The registers of
the CSU show the counters as long as no emulated store reached them.
-/

namespace SeCloak
open Misc

/-- A reason for the kernel to run. -/
inductive SysAct where
  | smc (c : SmcCall)
  | abort (ctx ctx' : NsecCtx) (status dataPaddr instrPaddr : Word)
  /-- an interrupt, or the non-secure world on its own -/
  | other

/-- A step with its log. -/
structure SysEvent where
  act : SysAct
  log : List Event

/-- What the interrupt handlers of ports and keys and the non-secure world may change: lines,
ports, the state of the secure power key, the display and plain memory. -/
structure OtherOnly (s s' : Sys) : Prop where
  rest : s' = { s with
    gic := s'.gic, gpio := { s.gpio with port := s'.gpio.port }, secpwr := s'.secpwr
    fb := { s.fb with cpmem := s'.fb.cpmem, mem := s'.fb.mem }, mem := s'.mem }
  fixed : ∀ n, (s'.gpio.port n).map Port.fixed = (s.gpio.port n).map Port.fixed

def sysStep (env : Env) (t : DeviceTable) (s : Sys) (x : SysEvent) (s' : Sys) : Prop :=
  match x.act with
  | .smc c => Code.Runs (cloakEntry env t c.presses c.args) s x.log c.res s'
  | .abort ctx ctx' status pa ia => Code.Runs (emuHandle env ctx status pa ia) s x.log ctx' s'
  | .other => x.log = [] ∧ OtherOnly s s'

/-- No emulated store reached the registers of the CSU. -/
def SysEvent.Clean (x : SysEvent) : Prop := ∀ a v, .write a v ∈ x.log → ¬ a.hits CsuByte

/-- The invariant of the running system. -/
structure Sound (env : Env) (t : DeviceTable) (clean : Prop) (s : Sys) : Prop where
  between : s.Between t
  settled : Settled env clean [] s

theorem Booted.sound {env : Env} {t : DeviceTable} {clean : Prop} {s : Sys} (h : Booted env s) :
    Sound env t clean s := by
  refine ⟨⟨h.lock, explained_of_all_enabled h.enabled, h.keys⟩, h.settled.gpio, ?_⟩
  obtain ⟨L, ha⟩ := h.settled.balanced
  exact ⟨L, { ha with ok := fun _ => ha.ok trivial }⟩

/-- A `CLOAK_SET` keeps the invariant, whatever the answer. -/
theorem SetStages.sound {env : Env} {t : DeviceTable} {presses : List Word} {a1 : Word}
    {clean : Prop} {s s₁ : Sys} {w : List Event}
    (st : SetStages env t presses a1 s.locked w s₁) (hs : Sound env t clean s) :
    Sound env t clean s₁.unlocked := by
  have hset : Settled env clean [] s.locked :=
    hs.settled.congr rfl rfl (fun _ => rfl) (by
      obtain ⟨L, ha⟩ := hs.settled.balanced
      exact ⟨L, ha.congr rfl rfl rfl (Nat.le_refl _)⟩)
  have hset₁ := st.settled hset
  have hbefore : st.sAnswer.enabled = s.enabled := st.enabled_before
  have hexpl : s₁.Explained t := by
    have happly := st.apply
    have hans : st.sAnswer.Explained t := by
      rw [Sys.Explained, hbefore]
      exact hs.between.explained
    rw [Sys.Explained, st.enabled_after]
    by_cases hallow : cloakAnswer presses = .allow
    · rw [if_pos hallow] at happly
      obtain ⟨sP, hrun, hsP⟩ := happly
      rw [hsP]
      exact (cloakApply_enabled hans hrun).2
    · rw [if_neg hallow] at happly
      rw [happly.2]
      exact hans
  refine ⟨⟨rfl, hexpl, st.keys_ready hs.between.keys⟩, ?_⟩
  refine hset₁.congr rfl rfl (fun _ => rfl) ?_
  obtain ⟨L, ha⟩ := hset₁.balanced
  exact ⟨L, ha.congr rfl rfl rfl (Nat.le_refl _)⟩

/-- Steps that leave flags, counters, regions and drivers alone keep the invariant; the registers
show the counters if they did before and are the same. -/
theorem Sound.quiet {env : Env} {t : DeviceTable} {clean : Prop} {s s' : Sys}
    (hs : Sound env t clean s) (hports : SamePorts s s') (hen : s'.enabled = s.enabled)
    (hlock : s'.cloak.lock = s.cloak.lock) (hkeys : s'.keys = s.keys)
    (hcounts : s'.csu.counts = s.csu.counts) (hreg : s'.regions = s.regions)
    (hal : s.allocs ≤ s'.allocs) (hcsu : clean → s'.csu = s.csu) : Sound env t clean s' := by
  refine ⟨⟨hlock.trans hs.between.lock, ?_, ?_⟩, ?_⟩
  · rw [Sys.Explained, hen]
    exact hs.between.explained
  · rw [Sys.KeysReady, hkeys]
    exact hs.between.keys
  · refine hs.settled.congr hports.allocated hports.ports hports.fixed ?_
    obtain ⟨L, ha⟩ := hs.settled.balanced
    exact ⟨L, ha.nodup, fun d => by rw [ha.mem, hen], ha.ledger.congr hcounts hreg hal, ha.range,
      fun hc => hcsu hc ▸ ha.ok hc⟩

/-- One step of the system. -/
theorem sysStep_sound {env : Env} {t : DeviceTable} {clean : Prop} {s s' : Sys} {x : SysEvent}
    (h : sysStep env t s x s') (hclean : clean → x.Clean) (hs : Sound env t clean s) :
    Sound env t clean s' := by
  obtain ⟨act, log⟩ := x
  cases act with
  | smc c =>
    have hstep : smcStep env t s c s' := ⟨log, h⟩
    by_cases hset : c.args.a0 = opteeSmcCloakSet
    · obtain ⟨-, w, s₁, ⟨st⟩, rfl⟩ := smcStep_set hs.between.lock hset hstep
      exact st.sound hs
    · obtain ⟨rfl, -⟩ := smcStep_other hs.between.lock hset hstep
      exact hs
  | abort ctx ctx' status pa ia =>
    have hrun : Code.Runs (emuHandle env ctx status pa ia) s log ctx' s' := h
    obtain ⟨hbus, -, hcsu⟩ := emuHandle_frame hrun
    have hports : SamePorts s s' := by
      refine ⟨?_, ?_, hbus.fixed⟩ <;> rw [hbus.rest]
    refine hs.quiet hports ?_ ?_ ?_ ?_ ?_ (Nat.le_of_eq ?_) fun hc => hcsu (hclean hc)
    all_goals rw [hbus.rest]
  | other =>
    obtain ⟨-, hother⟩ := h
    have hports : SamePorts s s' := by
      refine ⟨?_, ?_, hother.fixed⟩ <;> rw [hother.rest]
    refine hs.quiet hports ?_ ?_ ?_ ?_ ?_ (Nat.le_of_eq ?_) fun _ => ?_
    all_goals rw [hother.rest]

/-- Every state that the system reaches after boot. -/
theorem steps_sound {env : Env} {t : DeviceTable} {s₀ s : Sys} {xs : List SysEvent}
    (hboot : Booted env s₀) (h : Steps (sysStep env t) s₀ xs s) :
    Sound env t (∀ x ∈ xs, x.Clean) s :=
  h.invariant (fun x hx _ _ hstep hs => sysStep_sound hstep (fun hc => hc x hx) hs) hboot.sound

end SeCloak
