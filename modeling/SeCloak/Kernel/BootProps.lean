import SeCloak.Drivers.FbProps
import SeCloak.Drivers.GpioKeysProps
import SeCloak.Kernel.Boot

/-!
# What a boot leaves behind

Every device is enabled, the lock is free, the key driver is ready or unusable, and the CSLs that
are protected are exactly those of the ports (`Sys.portCsls`).
-/

namespace SeCloak
open Misc

/-! ## Ports -/

/-- The CSLs that the probed ports hold: `csu[0]` of each. -/
def Sys.portCsls (s : Sys) : List Int :=
  s.gpio.ports.filterMap fun n => (s.gpio.port n).bind fun p => p.dev.info.csu.head?

/-- Ports are numbered in the order in which they are allocated. -/
def Gpio.Ok (g : Gpio) : Prop := ∀ n ∈ g.ports, n < g.allocated

theorem portCsl_fixed {o o' : Option Port} (h : o'.map Port.fixed = o.map Port.fixed) :
    (o'.bind fun p => p.dev.info.csu.head?) = o.bind fun p => p.dev.info.csu.head? := by
  cases o' with
  | none =>
    cases o with
    | none => rfl
    | some p => cases h
  | some p' =>
    cases o with
    | none => cases h
    | some p =>
      have hdev : p'.dev = p.dev := congrArg Prod.fst (Option.some.inj h)
      simp only [Option.bind_some, hdev]

theorem portCsls_congr {s s' : Sys} (hports : s'.gpio.ports = s.gpio.ports)
    (hfixed : ∀ n ∈ s.gpio.ports, (s'.gpio.port n).map Port.fixed = (s.gpio.port n).map Port.fixed) :
    s'.portCsls = s.portCsls := by
  unfold Sys.portCsls
  rw [hports]
  refine List.filterMap_congr fun n hn => ?_
  exact portCsl_fixed (hfixed n hn)

/-! ## Frame of the probes -/

/-- What the drivers of interrupts and ports may change. -/
structure ProbeOnly (s s' : Sys) : Prop where
  rest : s' = { s with
    csu := s'.csu, regions := s'.regions, gic := s'.gic, chip := s'.chip, gpio := s'.gpio
    allocs := s'.allocs }
  spare : s'.csu.spare = s.csu.spare

theorem gpioAddIrq_irqOnly (env : Env) (desc : IrqDesc) (handler : Handler) :
    Code.Within (gpioAddIrq env desc handler) IrqOnly := by
  refine Code.within_bind irqOnly_closed (irqAdd_irqOnly _ _ _ _) fun _ => ?_
  refine Code.within_bind irqOnly_closed (irqEnable_irqOnly _ _) fun _ => ?_
  exact Code.within_pure irqOnly_closed ()

theorem irqConstructChip_runs {env : Env} {chip : ChipId} {n : Nat} {d : Bool} {s s' : Sys}
    {w : List Event} {r : Int} (h : Code.Runs (irqConstructChip env chip n d) s w r s') :
    w = [] ∧ s' = { s with chip := s'.chip, allocs := s.allocs + 1 } := by
  rw [irqConstructChip, runs_malloc_bind, Code.runs_modify_bind, Code.runs_pure] at h
  obtain ⟨rfl, -, rfl⟩ := h
  exact ⟨rfl, rfl⟩

/-- The last part of a probe of a port: a region, the CSL of the port, and the port is in the
list. -/
theorem mxcGpioRegister_runs {env : Env} {n : Nat} {dev : Device} {pbase size : Word} {s s' : Sys}
    {w : List Event} {r : Int} (h : Code.Runs (mxcGpioRegister env n dev pbase size) s w r s') :
    ∃ c s₁ s₂ w₁ w₂ ret, dev.info.csu.head? = some c ∧
      Code.Runs (emuAddRegion env pbase size .gpio) s w₁ ret s₁ ∧
      Code.Runs (csuSetCsl env c true) s₁ w₂ () s₂ ∧
      s' = { s₂ with
        chip := s'.chip, allocs := s₂.allocs + 1, gpio := { s₂.gpio with ports := n :: s₂.gpio.ports } } := by
  obtain ⟨w₁, ret, s₁, v₁, h₁, k₁, rfl⟩ := Code.runs_bind.mp h
  cases hcsu : dev.info.csu with
  | nil => simp [hcsu] at k₁
  | cons c cs =>
    simp only [hcsu] at k₁
    obtain ⟨w₂, _, s₂, v₂, h₂, k₂, rfl⟩ := Code.runs_bind.mp k₁
    obtain ⟨w₃, _, s₃, v₃, h₃, k₃, rfl⟩ := Code.runs_bind.mp k₂
    rw [Code.runs_modify_bind, Code.runs_pure] at k₃
    obtain ⟨-, -, rfl⟩ := k₃
    obtain ⟨-, hs₃⟩ := irqConstructChip_runs h₃
    refine ⟨c, s₁, s₂, w₁, w₂, ret, rfl, h₁, h₂, ?_⟩
    rw [hs₃]

/-- What a probe of a port does, up to the order of independent changes: either nothing but an
allocation and the variant in use, or a new port that holds its CSL. -/
theorem mxcGpioSetup_stages {env : Env} {n : Nat} {hwtype : HwType} {firstPort : Bool} {port : Port}
    {size : Word} {s s' : Sys} {w : List Event} {r : Int}
    (h : Code.Runs (mxcGpioSetup env n hwtype firstPort port size) s w r s') :
    ∃ s₁ w₁, IrqOnly { s with gpio := { s.gpio with
        allocated := n + 1, port := Function.update s.gpio.port n (some port) } } [] s₁ ∧
      Code.Runs (mxcGpioRegister env n port.dev port.pbase size) s₁ w₁ r s' := by
  rw [mxcGpioSetup, Code.runs_modify_bind] at h
  obtain ⟨w₁, _, s₁, v₁, h₁, k₁, rfl⟩ := Code.runs_bind.mp h
  obtain ⟨w₂, _, s₂, v₂, h₂, k₂, rfl⟩ := Code.runs_bind.mp k₁
  have hirq₁ := Code.within_runIf irqOnly_closed (gpioAddIrq_irqOnly _ _ _) h₁
  have hirq₂ := Code.within_forEach irqOnly_closed
    (fun d _ => Code.within_runIf irqOnly_closed (gpioAddIrq_irqOnly _ _ _)) h₂
  have hirq := irqOnly_closed.append hirq₁ hirq₂
  have hnil := hirq.silent
  rw [hnil] at hirq
  exact ⟨s₂, v₂, hirq, k₂⟩

theorem mxcGpioProbe_runs {env : Env} {dev : Device} {hwtype : HwType} {vaddr : Option Word}
    {regs : GpioRegs} {s s' : Sys} {w : List Event} {r : Int}
    (h : Code.Runs (mxcGpioProbe env dev hwtype vaddr regs) s w r s') :
    s' = { s with allocs := s.allocs + 1, gpio := { s.gpio with hwtype := s'.gpio.hwtype } } ∨
      ∃ hw firstPort port size, Code.Runs (mxcGpioSetup env s.gpio.allocated hwtype firstPort port size)
        { s with allocs := s.allocs + 1, gpio := { s.gpio with hwtype := hw } } w r s' := by
  rw [mxcGpioProbe, runs_malloc_bind, Code.runs_ite] at h
  by_cases hok : env.malloc s.allocs = false
  · rw [if_pos hok] at h
    obtain ⟨-, -, rfl⟩ := Code.runs_pure.mp h
    exact Or.inl rfl
  rw [if_neg hok, Code.runs_get_bind] at h
  obtain ⟨w₁, _, s₁, w₂, h₁, h₂, rfl⟩ := Code.runs_bind.mp h
  rw [mxcGpioGetHw, Code.runs_get_bind, Code.runs_require_bind, Code.runs_modify] at h₁
  obtain ⟨-, rfl, rfl⟩ := h₁
  rw [List.nil_append]
  split at h₂
  · dsimp only at h₂
    split at h₂
    · exact Or.inr ⟨_, _, _, _, h₂⟩
    · exact Or.inr ⟨_, _, _, _, h₂⟩
    · obtain ⟨-, -, rfl⟩ := Code.runs_pure.mp h₂
      exact Or.inl rfl
  · obtain ⟨-, -, rfl⟩ := Code.runs_pure.mp h₂
    exact Or.inl rfl

theorem mxcGpioSetup_probeOnly {env : Env} {n : Nat} {hwtype : HwType} {firstPort : Bool}
    {port : Port} {size : Word} {s s' : Sys} {w : List Event} {r : Int}
    (h : Code.Runs (mxcGpioSetup env n hwtype firstPort port size) s w r s') : ProbeOnly s s' := by
  obtain ⟨s₁, w₁, hirq, hreg⟩ := mxcGpioSetup_stages h
  obtain ⟨c, s₂, s₃, w₂, w₃, ret, -, h₂, h₃, hs'⟩ := mxcGpioRegister_runs hreg
  obtain ⟨-, hs₂⟩ := emuAddRegion_runs h₂
  obtain ⟨-, -, hs₃, -⟩ := csuSetCsl_runs h₃
  have hcsu : s'.csu = s₁.csu.setCsl c.toNat true := by rw [hs', hs₃, hs₂]
  refine ⟨?_, ?_⟩
  · rw [hs', hs₃, hs₂, hirq.rest]
  · rw [hcsu, setCsl_spare, hirq.rest]

/-! ## Accounts of the probes -/

/-- The accounts with the CSLs of the ports, and `Y` for the framebuffer. -/
structure Settled (env : Env) (clean : Prop) (Y : List Int) (s : Sys) : Prop where
  gpio : s.gpio.Ok
  balanced : Balanced env clean (Y ++ s.portCsls) s

theorem Settled.congr {env : Env} {clean : Prop} {Y : List Int} {s s' : Sys}
    (h : Settled env clean Y s) (hgpio : s'.gpio.allocated = s.gpio.allocated)
    (hports : s'.gpio.ports = s.gpio.ports)
    (hfixed : ∀ n, (s'.gpio.port n).map Port.fixed = (s.gpio.port n).map Port.fixed)
    (hb : Balanced env clean (Y ++ s.portCsls) s') : Settled env clean Y s' := by
  refine ⟨fun n hn => ?_, ?_⟩
  · rw [hgpio]
    exact h.gpio n (hports ▸ hn)
  · rw [portCsls_congr hports fun n _ => hfixed n]
    exact hb

theorem mxcGpioSetup_settled {env : Env} {clean : Prop} {Y : List Int} {hwtype : HwType}
    {firstPort : Bool} {port : Port} {size : Word} {s s' : Sys} {w : List Event} {r : Int}
    (h : Code.Runs (mxcGpioSetup env s.gpio.allocated hwtype firstPort port size) s w r s')
    (hs : Settled env clean Y s) : Settled env clean Y s' := by
  obtain ⟨s₁, w₁, hirq, hreg⟩ := mxcGpioSetup_stages h
  obtain ⟨c, s₂, s₃, w₂, w₃, ret, hc, h₂, h₃, hs'⟩ := mxcGpioRegister_runs hreg
  obtain ⟨L, ha⟩ := hs.balanced
  have ha₁ : Accounts env clean (Y ++ s.portCsls) s₁ L :=
    ha.congr (by rw [hirq.rest]) (by rw [hirq.rest]) (by rw [hirq.rest])
      (Nat.le_of_eq (by rw [hirq.rest]))
  have hl₂ : Ledger env s₂ L (Y ++ s.portCsls) [] := emuAddRegion_ledger h₂ ha₁.ledger
  obtain ⟨hl₃, hok₃⟩ := csuSetCsl_protect h₃ hl₂
  obtain ⟨-, hs₂⟩ := emuAddRegion_runs h₂
  obtain ⟨-, -, hs₃, -⟩ := csuSetCsl_runs h₃
  have hports₃ : s₃.gpio.ports = s.gpio.ports := by rw [hs₃, hs₂, hirq.rest]
  have hport₃ : ∀ n, (s₃.gpio.port n).map Port.fixed =
      (Function.update s.gpio.port s.gpio.allocated (some port) n).map Port.fixed := by
    intro n
    rw [hs₃, hs₂]
    exact hirq.fixed n
  -- the new port is not one of the old ones
  have hnew : ∀ n ∈ s.gpio.ports, (s₃.gpio.port n).map Port.fixed =
      (s.gpio.port n).map Port.fixed := by
    intro n hn
    rw [hport₃, Function.update_of_ne (Nat.ne_of_lt (hs.gpio n hn))]
  have hcsls : s'.portCsls = c :: s.portCsls := by
    have hold := portCsls_congr hports₃ hnew
    have hhead : ((s₃.gpio.port s.gpio.allocated).bind fun p => p.dev.info.csu.head?) = some c := by
      rw [portCsl_fixed (hport₃ s.gpio.allocated), Function.update_self]
      exact hc
    rw [← hold, hs']
    unfold Sys.portCsls
    exact List.filterMap_cons_some hhead
  refine ⟨?_, L, ?_⟩
  · have halloc : s'.gpio.allocated = s.gpio.allocated + 1 := by
      rw [hs', hs₃, hs₂, hirq.rest]
    have hports : s'.gpio.ports = s.gpio.allocated :: s.gpio.ports := by
      rw [hs', hports₃]
    intro n hn
    rw [hports] at hn
    rw [halloc]
    rcases List.mem_cons.mp hn with rfl | hn
    · exact Nat.lt_succ_self _
    · exact Nat.lt_succ_of_lt (hs.gpio n hn)
  · have hcsu₂ : s₂.csu = s₁.csu := by rw [hs₂]
    have ha₃ : Accounts env clean (c :: (Y ++ s.portCsls)) s₃ L :=
      { nodup := ha₁.nodup
        mem := fun d => by rw [ha₁.mem, hs₃, hs₂]
        ledger := hl₃
        range := ha₁.range
        ok := fun hcl => hok₃ (hcsu₂ ▸ ha₁.ok hcl) }
    rw [hcsls]
    refine (ha₃.perm List.perm_middle.symm).congr ?_ ?_ ?_ ?_
    · rw [hs']
    · rw [hs']
    · rw [hs']
    · rw [hs']
      exact Nat.le_succ _

/-! ## All probes -/

/-- What the other probes may change; the ports that exist keep their identity. -/
structure SetupOnly (s s' : Sys) : Prop where
  rest : s' = { s with
    gic := s'.gic, chip := s'.chip
    gpio := { s.gpio with hwtype := s'.gpio.hwtype, port := s'.gpio.port }
    keys := s'.keys, secpwr := s'.secpwr, fb := s'.fb
    cloak := { s.cloak with confirmStatus := s'.cloak.confirmStatus }, allocs := s'.allocs }
  fixed : ∀ n, (s'.gpio.port n).map Port.fixed = (s.gpio.port n).map Port.fixed
  allocs : s.allocs ≤ s'.allocs

theorem setupOnly_closed :
    Code.Closed (fun s _ s' => SetupOnly s s' : Sys → List Event → Sys → Prop) where
  nil s := ⟨rfl, fun _ => rfl, Nat.le_refl _⟩
  append h h' := by
    refine ⟨?_, fun n => (h'.fixed n).trans (h.fixed n), Nat.le_trans h.allocs h'.allocs⟩
    rw [h'.rest, h.rest]

theorem InputOnly.setupOnly {s s' : Sys} {w : List Event} (h : InputOnly s w s') :
    SetupOnly s s' := by
  refine ⟨?_, h.fixed, Nat.le_of_eq (by rw [h.rest])⟩
  rw [h.rest]

theorem SetupOnly.settled {env : Env} {clean : Prop} {Y : List Int} {s s' : Sys}
    (h : SetupOnly s s') (hs : Settled env clean Y s) : Settled env clean Y s' := by
  obtain ⟨L, ha⟩ := hs.balanced
  refine hs.congr ?_ ?_ h.fixed ⟨L, ha.congr ?_ ?_ ?_ h.allocs⟩
  all_goals rw [h.rest]

theorem irqConstructChip_setupOnly (env : Env) (chip : ChipId) (n : Nat) (d : Bool) :
    Code.Within (irqConstructChip env chip n d) (fun s _ s' => SetupOnly s s') := by
  intro s w r s' h
  obtain ⟨-, hs'⟩ := irqConstructChip_runs h
  refine ⟨?_, fun n => ?_, ?_⟩
  · rw [hs']
  · rw [hs']
  · rw [hs']
    exact Nat.le_succ _

theorem malloc_setupOnly (env : Env) :
    Code.Within (malloc env) (fun s _ s' => SetupOnly s s') := by
  intro s w ok s' h
  simp only [malloc, Code.runs_get_bind, Code.runs_modify_bind, Code.runs_pure] at h
  obtain ⟨-, -, rfl⟩ := h
  exact ⟨rfl, fun _ => rfl, Nat.le_succ _⟩

theorem modifyKeys_setupOnly (f : Sys → Option KeysData) :
    Code.Within (Code.modify fun s => { s with keys := f s } : Kernel Unit)
      (fun s _ s' => SetupOnly s s') :=
  Code.within_modify fun _ => ⟨rfl, fun _ => rfl, Nat.le_refl _⟩

theorem gpioKeysProbe_setupOnly (env : Env) (nodes : List KeyNode) :
    Code.Within (gpioKeysProbe env nodes) (fun s _ s' => SetupOnly s s') :=
  within_gpioKeysProbe setupOnly_closed (malloc_setupOnly env) modifyKeys_setupOnly
    fun _ _ _ _ h => (gpioKeysAcquire_inputOnly env _ h).setupOnly

/-! The probes of the framebuffer, the GIC and the GPC stay inside a relation as soon as their parts
do. -/

section Rules

variable {env : Env} {R : Sys → List Event → Sys → Prop}

theorem within_fbProbe (hR : Code.Closed R)
    (hfb : ∀ f : Sys → Fb, Code.Within (Code.modify fun s => { s with fb := f s } : Kernel Unit) R)
    {dev : Device} {mapped : Bool} {cpmem : Option Word} {words : Nat → Word} :
    Code.Within (fbProbe dev mapped cpmem words) R := by
  unfold fbProbe
  split
  · refine Code.within_bind hR (Code.within_get hR) fun s => ?_
    exact Code.within_bind hR (Code.within_runIf hR (hfb _)) fun _ => Code.within_pure hR _
  · exact Code.within_pure hR _

theorem within_gicProbe (hR : Code.Closed R) (hgic : ∀ f, Code.Within (modifyGic f) R)
    (hchip : ∀ c n d, Code.Within (irqConstructChip env c n d) R) {dev : Device} {maxIt : Nat} :
    Code.Within (gicProbe env dev maxIt) R := by
  refine Code.within_ite (Code.within_pure hR _) (Code.within_bind hR (hgic _) fun _ => ?_)
  exact Code.within_bind hR (hchip _ _ _) fun _ => Code.within_pure hR _

theorem within_gpcProbe (hR : Code.Closed R)
    (hchip : ∀ c n d, Code.Within (irqConstructChip env c n d) R) : Code.Within (gpcProbe env) R := by
  refine Code.within_bind hR (Code.within_get hR) fun s => ?_
  exact Code.within_bind hR (hchip _ _ _) fun _ => Code.within_pure hR _

end Rules

theorem fbProbe_setupOnly (dev : Device) (mapped : Bool) (cpmem : Option Word) (words : Nat → Word) :
    Code.Within (fbProbe dev mapped cpmem words) (fun s _ s' => SetupOnly s s') :=
  within_fbProbe setupOnly_closed fun _ => Code.within_modify fun _ =>
    ⟨rfl, fun _ => rfl, Nat.le_refl _⟩

theorem gicProbe_setupOnly (env : Env) (dev : Device) (maxIt : Nat) :
    Code.Within (gicProbe env dev maxIt) (fun s _ s' => SetupOnly s s') :=
  within_gicProbe setupOnly_closed (fun _ => Code.within_modify fun _ =>
    ⟨rfl, fun _ => rfl, Nat.le_refl _⟩) (irqConstructChip_setupOnly env)

theorem gpcProbe_setupOnly (env : Env) :
    Code.Within (gpcProbe env) (fun s _ s' => SetupOnly s s') :=
  within_gpcProbe setupOnly_closed (irqConstructChip_setupOnly env)

/-- What a boot leaves alone: flags, lock and settings. -/
structure BootOnly (s s' : Sys) : Prop where
  enabled : s'.enabled = s.enabled
  lock : s'.cloak.lock = s.cloak.lock
  prevSettings : s'.cloak.prevSettings = s.cloak.prevSettings
  spare : s'.csu.spare = s.csu.spare

theorem BootOnly.trans {s s' s'' : Sys} (h : BootOnly s s') (h' : BootOnly s' s'') :
    BootOnly s s'' where
  enabled := h'.enabled.trans h.enabled
  lock := h'.lock.trans h.lock
  prevSettings := h'.prevSettings.trans h.prevSettings
  spare := h'.spare.trans h.spare

theorem SetupOnly.bootOnly {s s' : Sys} (h : SetupOnly s s') : BootOnly s s' := by
  refine ⟨?_, ?_, ?_, ?_⟩ <;> rw [h.rest]

theorem ProbeOnly.bootOnly {s s' : Sys} (h : ProbeOnly s s') : BootOnly s s' := by
  refine ⟨?_, ?_, ?_, h.spare⟩ <;> rw [h.rest]

/-- The key driver was set up completely, or cannot be acquired, or was not probed. -/
def Sys.KeysReady (s : Sys) : Prop := ∀ k, s.keys = some k → k.Ready

theorem gpioProbe_runs {env : Env} {dev : Device} {hwtype : HwType} {vaddr : Option Word}
    {regs : GpioRegs} {s s' : Sys} {w : List Event} {r : Int}
    (h : Code.Runs (mxcGpioProbe env dev hwtype vaddr regs) s w r s') :
    BootOnly s s' ∧ s'.keys = s.keys ∧
      ∀ {clean Y}, Settled env clean Y s → Settled env clean Y s' := by
  rcases mxcGpioProbe_runs h with hs' | ⟨hw, firstPort, port, size, hsetup⟩
  · have hset : SetupOnly s s' := by
      refine ⟨?_, fun n => ?_, ?_⟩
      · rw [hs']
      · rw [hs']
      · rw [hs']
        exact Nat.le_succ _
    exact ⟨hset.bootOnly, by rw [hs'], hset.settled⟩
  · have hset : SetupOnly s
        { s with allocs := s.allocs + 1, gpio := { s.gpio with hwtype := hw } } :=
      ⟨rfl, fun _ => rfl, Nat.le_succ _⟩
    have hprobe := mxcGpioSetup_probeOnly hsetup
    refine ⟨hset.bootOnly.trans hprobe.bootOnly, by rw [hprobe.rest], fun hs => ?_⟩
    exact mxcGpioSetup_settled hsetup (hset.settled hs)

/-- What holds of every probe. -/
theorem probe_runs {env : Env} {p : Probe} {s s' : Sys} {w : List Event} {r : Int}
    (h : Code.Runs (p.run env) s w r s') :
    BootOnly s s' ∧ (s.KeysReady → s'.KeysReady) ∧
      ∀ {clean Y}, Settled env clean Y s → Settled env clean Y s' := by
  have hchip : ∀ chip n d, Code.Within (irqConstructChip env chip n d) (Code.Keeps Sys.keys) := by
    intro chip n d s w r s' h
    rw [Code.Keeps, (irqConstructChip_runs h).2]
  have hclosed : Code.Closed (Code.Keeps Sys.keys : Sys → List Event → Sys → Prop) :=
    Code.keeps_closed Sys.keys
  -- all but the key driver leave the keys alone
  have hkeys : ∀ {m : Kernel Int}, Code.Within m (fun s _ s' => SetupOnly s s') →
      Code.Within m (Code.Keeps Sys.keys) → Code.Runs m s w r s' →
      BootOnly s s' ∧ (s.KeysReady → s'.KeysReady) ∧
        ∀ {clean Y}, Settled env clean Y s → Settled env clean Y s' := by
    intro m hm hk h
    refine ⟨(hm h).bootOnly, fun hready => ?_, (hm h).settled⟩
    have hkeys : s'.keys = s.keys := hk h
    rw [Sys.KeysReady, hkeys]
    exact hready
  cases p with
  | gic dev maxIt =>
    exact hkeys (gicProbe_setupOnly env dev maxIt)
      (within_gicProbe hclosed (fun _ => Code.within_modify fun _ => rfl) hchip) h
  | gpc => exact hkeys (gpcProbe_setupOnly env) (within_gpcProbe hclosed hchip) h
  | gpio dev hwtype vaddr regs =>
    obtain ⟨hboot, hk, hset⟩ := gpioProbe_runs h
    refine ⟨hboot, fun hready => ?_, hset⟩
    rw [Sys.KeysReady, hk]
    exact hready
  | fb dev mapped cpmem words =>
    exact hkeys (fbProbe_setupOnly dev mapped cpmem words)
      (within_fbProbe hclosed fun _ => Code.within_modify fun _ => rfl) h
  | keys nodes =>
    have hset := gpioKeysProbe_setupOnly env nodes h
    exact ⟨hset.bootOnly, fun hready => gpioKeysProbe_ready hready h, hset.settled⟩
  | alloc =>
    have hset : Code.Within (Probe.alloc.run env) (fun s _ s' => SetupOnly s s') :=
      Code.within_bind setupOnly_closed (malloc_setupOnly env)
        fun _ => Code.within_pure setupOnly_closed _
    refine hkeys hset ?_ h
    intro s w r s' h
    simp only [Probe.run, runs_malloc_bind, Code.runs_pure] at h
    rw [Code.Keeps, h.2.2]

theorem dtProbe_runs {env : Env} {probes : List Probe} {s s' : Sys} {w : List Event} {u : Unit}
    (h : Code.Runs (dtProbe env probes) s w u s') :
    BootOnly s s' ∧ (s.KeysReady → s'.KeysReady) ∧
      ∀ {clean Y}, Settled env clean Y s → Settled env clean Y s' := by
  unfold dtProbe at h
  induction probes generalizing s w with
  | nil =>
    obtain ⟨-, rfl⟩ := Code.runs_forEach_nil.mp h
    exact ⟨⟨rfl, rfl, rfl, rfl⟩, id, id⟩
  | cons p probes ih =>
    obtain ⟨w₁, s₁, w₂, h₁, h₂, rfl⟩ := Code.runs_forEach_cons.mp h
    obtain ⟨w₃, r, s₃, w₄, h₃, h₄, rfl⟩ := Code.runs_bind.mp h₁
    obtain ⟨-, -, rfl⟩ := Code.runs_pure.mp h₄
    obtain ⟨hboot₁, hready₁, hset₁⟩ := probe_runs h₃
    obtain ⟨hboot₂, hready₂, hset₂⟩ := ih h₂
    exact ⟨hboot₁.trans hboot₂, hready₂ ∘ hready₁, fun hs => hset₂ (hset₁ hs)⟩

/-! ## Boot -/

/-- A state of the kernel before `main_init_primary`: static variables are zero, registers and
memory hold anything. -/
def IsReset (s : Sys) : Prop :=
  ∃ csl sa gic cpmem fbmem mem, s = resetSys csl sa gic cpmem fbmem mem

theorem csuInit_settled {env : Env} {mapped : Bool} {s s' : Sys} {w : List Event} {u : Unit}
    (hs : IsReset s) (h : Code.Runs (csuInit env mapped) s w u s') :
    BootOnly s s' ∧ s'.keys = none ∧ Settled env True [] s' := by
  obtain ⟨csl, sa, gic, cpmem, fbmem, mem, rfl⟩ := hs
  obtain ⟨hrest, hzero, hok, hspare⟩ := csuInit_runs h
  have hen : s'.enabled = fun _ => true := by
    rw [hrest]
    rfl
  have hgpio : s'.gpio = {} := by
    rw [hrest]
    rfl
  have hregions : s'.regions = [] := by
    rw [hrest]
    rfl
  refine ⟨⟨?_, ?_, ?_, hspare⟩, ?_, ⟨?_, [], List.nodup_nil, ?_, ⟨?_, ?_⟩, ?_, fun _ => hok⟩⟩
  · rw [hrest]
  · rw [hrest]
  · rw [hrest]
  · rw [hrest]
    rfl
  · rw [hgpio]
    intro n hn
    cases hn
  · intro d
    simp [hen]
  · intro c hc
    have hlt : c.toNat < maxCsl := by
      have := hc.1
      have := hc.2
      omega
    have hports : s'.portCsls = [] := by
      unfold Sys.portCsls
      rw [hgpio]
      rfl
    change s'.csu.counts c.toNat = _
    rw [hzero _ hlt, hports]
    rfl
  · intro _ r _
    rw [hregions]
    rfl
  · intro d hd
    cases hd

/-- The state in which the non-secure world starts. -/
structure Booted (env : Env) (s : Sys) : Prop where
  enabled : ∀ d, s.enabled d = true
  lock : s.cloak.lock = 0
  prevSettings : s.cloak.prevSettings = 0
  keys : s.KeysReady
  settled : Settled env True [] s

theorem boot_booted {env : Env} {probes : List Probe} {s s' : Sys} {w : List Event} {u : Unit}
    (hs : IsReset s) (h : Code.Runs (boot env probes) s w u s') : Booted env s' := by
  obtain ⟨w₁, _, s₁, w₂, h₁, h₂, rfl⟩ := Code.runs_bind.mp h
  obtain ⟨hboot₁, hkeys₁, hset₁⟩ := csuInit_settled hs h₁
  obtain ⟨hboot₂, hready₂, hset₂⟩ := dtProbe_runs h₂
  have hboot := hboot₁.trans hboot₂
  obtain ⟨csl, sa, gic, cpmem, fbmem, mem, rfl⟩ := hs
  refine ⟨fun d => ?_, hboot.lock, hboot.prevSettings, hready₂ ?_, hset₂ hset₁⟩
  · rw [hboot.enabled]
    rfl
  · intro k hk
    rw [hkeys₁] at hk
    cases hk

theorem Board.runs_boot {env : Env} {instr : Word}
    (h : (boot env Board.probes).succeeds (resetWithInstr instr) = true) :
    ∃ w, Code.Runs (boot env Board.probes) (resetWithInstr instr) w () (Board.booted env instr) := by
  obtain ⟨_, hrun⟩ := Code.runs_after h
  exact ⟨_, hrun⟩

theorem isReset_resetWithInstr (instr : Word) : IsReset (resetWithInstr instr) :=
  ⟨_, _, _, _, _, _, rfl⟩

theorem Board.booted_of_runs {env : Env} {instr : Word}
    (h : (boot env Board.probes).succeeds (resetWithInstr instr) = true) :
    Booted env (Board.booted env instr) := by
  obtain ⟨w, hrun⟩ := Board.runs_boot h
  exact boot_booted (isReset_resetWithInstr instr) hrun

theorem Board.booted_ok : Booted imx6 (Board.booted imx6 0) :=
  Board.booted_of_runs (by decide +kernel)

theorem Board.booted_release_ok : Booted imx6Release (Board.booted imx6Release 0) :=
  Board.booted_of_runs (by decide +kernel)

end SeCloak
