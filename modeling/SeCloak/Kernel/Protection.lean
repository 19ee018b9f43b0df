import SeCloak.Kernel.BootProps
import SeCloak.Misc.Steps

/-!
# Protection over whole runs

Devices, ports and the framebuffer share the counters of the CSLs, and devices share the list of
regions. Over every run of the drivers each counter is the number of its holders, each field
shows whether its counter is positive, and the deny regions are those of the disabled devices.
-/

namespace SeCloak
open Misc

/-- A call into the drivers. -/
inductive DriverOp where
  | device (dev : Device) (enable : Bool)
  | cls (name : CString) (enable : Bool)
  | probe (p : Probe)
  | acquire (r g b : Byte)
  | release

/-- A completed call. The second part of the state is the framebuffer while it is held: it is
acquired when nobody holds it and released by its holder. -/
def driverStep (env : Env) (t : DeviceTable) (x : Sys × Option FbInfo) (op : DriverOp)
    (x' : Sys × Option FbInfo) : Prop :=
  match op with
  | .device dev enable =>
    x'.2 = x.2 ∧ ∃ w r, Code.Runs (dtEnableDevice env dev enable) x.1 w r x'.1
  | .cls name enable =>
    x'.2 = x.2 ∧ ∃ w, Code.Runs (dtEnableClass env t name enable) x.1 w () x'.1
  | .probe p => x'.2 = x.2 ∧ ∃ w r, Code.Runs (p.run env) x.1 w r x'.1
  | .acquire r g b => x.2 = none ∧ ∃ w, Code.Runs (fbAcquire env r g b) x.1 w x'.2 x'.1
  | .release => x'.2 = none ∧ ∃ w info, x.2 = some info ∧
      Code.Runs (fbRelease env info) x.1 w () x'.1

/-- The CSL of the display while the framebuffer is held. -/
def heldCsl (held : Option FbInfo) : List Int := if held.isSome then [fbCsl] else []

/-- The invariant of the drivers. -/
structure DriversOk (env : Env) (spare : Nat → Word) (x : Sys × Option FbInfo) : Prop where
  settled : Settled env True (heldCsl x.2) x.1
  buffer : ∀ info, x.2 = some info → info.buffer.isSome = true
  spare : x.1.csu.spare = spare

theorem PolicyOnly.settled {env : Env} {clean : Prop} {Y : List Int} {s s' : Sys}
    (h : PolicyOnly s s') (hs : Settled env clean Y s)
    (hb : Balanced env clean (Y ++ s.portCsls) s') : Settled env clean Y s' := by
  refine hs.congr ?_ ?_ h.fixed hb
  · rw [h.rest]
  · rw [h.rest]

theorem FbOnly.settled {env : Env} {clean : Prop} {Y Y' : List Int} {s s' : Sys}
    (h : FbOnly s s') (hs : Settled env clean Y s)
    (hb : Balanced env clean (Y' ++ s.portCsls) s') : Settled env clean Y' s' := by
  have hgpio : s'.gpio = s.gpio := by rw [h.rest]
  refine ⟨hgpio ▸ hs.gpio, ?_⟩
  rw [portCsls_congr (s := s) (by rw [hgpio]) fun n _ => by rw [hgpio]]
  exact hb

/-- One call keeps the invariant. -/
theorem driverStep_ok {env : Env} {t : DeviceTable} {spare : Nat → Word} {op : DriverOp}
    {x x' : Sys × Option FbInfo} (h : driverStep env t x op x') (hx : DriversOk env spare x) :
    DriversOk env spare x' := by
  obtain ⟨s, held⟩ := x
  obtain ⟨s', held'⟩ := x'
  cases op with
  | device dev enable =>
    obtain ⟨rfl, w, r, hrun⟩ := h
    have hpol := dtEnableDevice_policyOnly hrun
    have hb := dtEnableDevice_balanced hrun hx.settled.balanced
    exact ⟨hpol.settled hx.settled hb, hx.buffer, hpol.spare.trans hx.spare⟩
  | cls name enable =>
    obtain ⟨rfl, w, hrun⟩ := h
    have hpol := dtEnableClass_policyOnly hrun
    have hb := dtEnableClass_balanced hrun hx.settled.balanced
    exact ⟨hpol.settled hx.settled hb, hx.buffer, hpol.spare.trans hx.spare⟩
  | probe p =>
    obtain ⟨rfl, w, r, hrun⟩ := h
    obtain ⟨hboot, -, hset⟩ := probe_runs hrun
    exact ⟨hset hx.settled, hx.buffer, hboot.spare.trans hx.spare⟩
  | acquire r g b =>
    obtain ⟨hnone, w, hrun⟩ := h
    dsimp only at hnone hrun
    subst hnone
    obtain ⟨info, _, _, _, hsome, hbuf, -⟩ := fbAcquire_runs hrun
    subst hsome
    obtain ⟨L, ha⟩ := hx.settled.balanced
    have hfb := fbAcquire_fbOnly hrun
    refine ⟨?_, ?_, hfb.spare.trans hx.spare⟩
    · exact hfb.settled hx.settled ⟨L, (fbAcquire_accounts hrun ha).1⟩
    · intro i hi
      cases hi
      exact hbuf
  | release =>
    obtain ⟨hnone, w, info, hheld, hrun⟩ := h
    dsimp only at hnone hheld hrun
    subst hnone hheld
    obtain ⟨L, ha⟩ := hx.settled.balanced
    have hfb := fbRelease_fbOnly hrun
    refine ⟨?_, ?_, hfb.spare.trans hx.spare⟩
    · exact hfb.settled hx.settled ⟨L, (fbRelease_accounts (hx.buffer info rfl) hrun ha).1⟩
    · intro i hi
      cases hi

/-- The deny regions as a multiset. -/
theorem denials_perm {s : Sys} {L : List Device}
    (h : Tallied IsDenial Device.denials (fun r => (s.regions.count r : Int)) L []) :
    (s.regions.filter fun r => decide (r.check = .denyAll)).Perm (L.flatMap Device.denials) := by
  rw [List.perm_iff_count]
  intro r
  by_cases hr : r.check = .denyAll
  · have hcount := h r hr
    rw [List.count_filter (by simpa using hr)]
    exact Int.natCast_inj.mp (by simpa using hcount)
  · have hleft : r ∉ s.regions.filter fun r => decide (r.check = .denyAll) := by
      simp [List.mem_filter, hr]
    have hright : r ∉ L.flatMap Device.denials := by
      intro hmem
      obtain ⟨d, -, hd⟩ := List.mem_flatMap.mp hmem
      obtain ⟨x, -, rfl⟩ := List.mem_map.mp hd
      exact hr rfl
    rw [List.count_eq_zero.mpr hleft, List.count_eq_zero.mpr hright]

/-- The protection of a state, with `L` the disabled devices that can be protected: every counter
is the number of its holders, every field shows its counter, the other bits of the registers are
as in `s₀`, and the deny regions are those of `L`. -/
structure Exact (s₀ s : Sys) (held : Option FbInfo) (L : List Device) : Prop where
  nodup : L.Nodup
  mem : ∀ d, d ∈ L ↔ d.canProtect = true ∧ s.enabled d = false
  counts : ∀ c < maxCsl, s.csu.counts c = (L.flatMap (·.info.csu)).count (c : Int) +
    s.portCsls.count (c : Int) + if held.isSome ∧ c = 61 then 1 else 0
  nonneg : ∀ c < maxCsl, 0 ≤ s.csu.counts c
  field : ∀ c < maxCsl, s.csu.field c = if 0 < s.csu.counts c then 0x33 else 0xFF
  spare : ∀ i, s.csu.csl i &&& 0xFF00FF00 = s₀.csu.csl i &&& 0xFF00FF00
  denied : (s.regions.filter fun r => decide (r.check = .denyAll)).Perm (L.flatMap Device.denials)

/-- After `csu_init` and any calls into the drivers the protection is exact. -/
theorem protection_counts {env : Env} {t : DeviceTable} {mapped : Bool} {s₀ s₁ s : Sys}
    {w₁ : List Event} {ops : List DriverOp} {held : Option FbInfo}
    (hmalloc : ∀ n, env.malloc n = true) (hreset : IsReset s₀)
    (hinit : Code.Runs (csuInit env mapped) s₀ w₁ () s₁)
    (hrun : Steps (driverStep env t) (s₁, none) ops (s, held)) :
    ∃ L : List Device, Exact s₀ s held L := by
  obtain ⟨hboot, -, hset⟩ := csuInit_settled hreset hinit
  have hstart : DriversOk env s₀.csu.spare (s₁, none) := by
    refine ⟨hset, ?_, hboot.spare⟩
    intro info hi
    cases hi
  have hend := hrun.invariant (I := DriversOk env s₀.csu.spare)
    (fun op _ x x' hstep hx => driverStep_ok hstep hx) hstart
  obtain ⟨L, ha⟩ := hend.settled.balanced
  refine ⟨L, ha.nodup, ha.mem, fun c hc => ?_, (ha.ok trivial).nonneg, (ha.ok trivial).field,
    fun i => congrFun hend.spare i, denials_perm (ha.ledger.denied fun n _ => hmalloc n)⟩
  have hcsl : IsCsl (c : Int) := ⟨Int.natCast_nonneg c, Int.ofNat_lt.mpr hc⟩
  have hcount := ha.ledger.csl c hcsl
  simp only [Int.toNat_natCast] at hcount
  rw [hcount, List.count_append]
  have hfb : (heldCsl held).count (c : Int) = if held.isSome ∧ c = 61 then 1 else 0 := by
    unfold heldCsl
    by_cases hh : held.isSome = true
    · by_cases h61 : c = 61
      · subst h61
        rw [if_pos hh, if_pos ⟨hh, rfl⟩]
        rfl
      · rw [if_pos hh, if_neg fun h => h61 h.2]
        refine List.count_eq_zero.mpr fun hmem => h61 ?_
        have := List.mem_singleton.mp hmem
        unfold fbCsl at this
        omega
    · rw [if_neg hh, if_neg fun h => hh h.1]
      rfl
  rw [hfb]
  by_cases hheld : held.isSome ∧ c = 61
  · rw [if_pos hheld, if_pos hheld]
    omega
  · rw [if_neg hheld, if_neg hheld]
    omega

/-- The board after `csu_init`, with its interrupt controller, and with the radio disabled. -/
def Board.afterCsuInit : Sys := (csuInit imx6 true).after (resetWithInstr 0)

def Board.gicProbed : Sys := ((Probe.gic Board.gic 159).run imx6).after Board.afterCsuInit

def Board.wlanDisabled : Sys := (dtEnableDevice imx6 Board.wlan false).after Board.gicProbed

theorem protection_counts_wlan : Board.wlanDisabled.csu.counts 12 = 1 ∧
    ∃ L : List Device, Exact (resetWithInstr 0) Board.wlanDisabled none L := by
  refine ⟨by decide +kernel, ?_⟩
  obtain ⟨_, hinit⟩ :=
    Code.runs_after (m := csuInit imx6 true) (s := resetWithInstr 0) (by decide +kernel)
  obtain ⟨r₂, hprobe⟩ := Code.runs_after (m := (Probe.gic Board.gic 159).run imx6)
    (s := Board.afterCsuInit) (by decide +kernel)
  obtain ⟨r₃, hdisable⟩ := Code.runs_after (m := dtEnableDevice imx6 Board.wlan false)
    (s := Board.gicProbed) (by decide +kernel)
  have hstep₂ : driverStep imx6 Board.table (Board.afterCsuInit, none)
      (.probe (.gic Board.gic 159)) (Board.gicProbed, none) := ⟨rfl, _, r₂, hprobe⟩
  have hstep₃ : driverStep imx6 Board.table (Board.gicProbed, none) (.device Board.wlan false)
      (Board.wlanDisabled, none) := ⟨rfl, _, r₃, hdisable⟩
  have hrun : Steps (driverStep imx6 Board.table) (Board.afterCsuInit, none)
      [.probe (.gic Board.gic 159), .device Board.wlan false] (Board.wlanDisabled, none) :=
    .cons hstep₂ (.cons hstep₃ (.nil _))
  exact protection_counts (fun _ => rfl) (isReset_resetWithInstr 0) hinit hrun

end SeCloak
