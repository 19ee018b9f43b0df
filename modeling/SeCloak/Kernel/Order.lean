import Mathlib.Data.List.Perm.Subperm
import SeCloak.Drivers.DtFaults
import SeCloak.Kernel.BootProps
import SeCloak.Misc.Steps

/-!
# The order of the steps inside a switch

A CSL that traps while the deny region of its device is missing would have the emulator perform
the accesses of the non-secure world. `dt_enable_device` adds the regions before it takes the
first CSL and removes them after it gave the last one back. What the counters of the CSU change by
during a call are references of the device that is switched (`holding`); the regions of all devices
that hold one are in the list after every single step, also of a switch that stops in the middle.
-/

namespace SeCloak
open Misc

/-- A step of `dt_enable_device` that changes what is protected. -/
inductive ProtStep where
  | setCsl (csl : Int) (protect : Bool)
  | addRegion (r : Resource)
  | removeRegion (r : Resource)

def ProtStep.run (env : Env) : ProtStep → Kernel Unit
  | .setCsl csl protect => csuSetCsl env csl protect
  | .addRegion r => do
    let _ ← emuAddRegion env r.address.c0 r.size.c0 .denyAll
    pure ()
  | .removeRegion r => emuRemoveRegion r.address.c0 r.size.c0 .denyAll

/-- The steps of one switch, in the order of `dt.c:402-421`. -/
def Device.protSteps (d : Device) (enable : Bool) : List ProtStep :=
  if enable then d.info.csu.map (.setCsl · false) ++ d.info.resources.map .removeRegion
  else d.info.resources.map .addRegion ++ d.info.csu.map (.setCsl · true)

/-- They are what the code does. -/
theorem dtProtect_eq_protSteps (env : Env) (d : Device) (enable : Bool) :
    dtProtect env d enable = Code.forEach (ProtStep.run env) (d.protSteps enable) := by
  unfold dtProtect Device.protSteps
  cases enable with
  | true =>
    simp only [if_true, Code.forEach_append, Code.forEach_map]
    rfl
  | false =>
    simp only [Bool.false_eq_true, if_false, Code.forEach_append, Code.forEach_map]
    rfl

/-! ## References -/

/-- How many references the devices hold on each CSL when a call for `d` has come from `s` to `t`: those
by which the counters have changed are references of `d`. -/
def holding (held : Device → Nat → Int) (d : Device) (s t : Sys) : Device → Nat → Int :=
  Function.update held d fun n => held d n + (t.csu.counts n - s.csu.counts n)

/-- A completed call of `dt_enable_device`, with the references that the devices hold. -/
def switchStep (env : Env) (x : Sys × (Device → Nat → Int)) (op : Device × Bool)
    (x' : Sys × (Device → Nat → Int)) : Prop :=
  ∃ w r, Code.Runs (dtEnableDevice env op.1 op.2) x.1 w r x'.1 ∧ x'.2 = holding x.2 op.1 x.1 x'.1

/-- The deny regions of all devices that hold a reference are in the region list, with their
multiplicity. -/
def Sys.Guarded (s : Sys) (held : Device → Nat → Int) : Prop :=
  ∀ M : List Device, M.Nodup → (∀ d ∈ M, d.canProtect = true ∧ ∃ n, 0 < held d n) →
    (M.flatMap Device.denials).Subperm s.regions

theorem holding_self (held : Device → Nat → Int) (d : Device) (s t : Sys) (n : Nat) :
    holding held d s t d n = held d n + (t.csu.counts n - s.csu.counts n) := by
  rw [holding, Function.update_self]

theorem holding_of_ne (held : Device → Nat → Int) {d e : Device} (h : e ≠ d) (s t : Sys) :
    holding held d s t e = held e := Function.update_of_ne h ..

theorem holding_of_csu_eq {held : Device → Nat → Int} {d : Device} {s s' t t' : Sys}
    (hs : s'.csu = s.csu) (ht : t'.csu = t.csu) : holding held d s' t' = holding held d s t := by
  unfold holding
  rw [hs, ht]

theorem holding_unchanged {held : Device → Nat → Int} {d : Device} {s t : Sys} (h : t.csu = s.csu) :
    holding held d s t = held := by
  unfold holding
  rw [h]
  simp only [Int.sub_self, Int.add_zero]
  exact Function.update_eq_self d held

/-- How often a device lists a CSL. -/
def Device.cslCount (d : Device) (n : Nat) : Nat := (d.info.csu.map Int.toNat).count n

/-- The counters after a loop over CSLs. -/
theorem setCsls_counts {env : Env} {p : Bool} {cs : List Int} {s t : Sys} {w : List Event} {u : Unit}
    (h : Code.Runs (Code.forEach (fun c => csuSetCsl env c p) cs) s w u t) (n : Nat) :
    t.csu.counts n = s.csu.counts n +
      if p then ((cs.map Int.toNat).count n : Int) else -((cs.map Int.toNat).count n : Int) := by
  induction cs generalizing s w with
  | nil =>
    obtain ⟨-, rfl⟩ := Code.runs_forEach_nil.mp h
    cases p <;> simp
  | cons c cs ih =>
    obtain ⟨w₁, s₁, w₂, h₁, h₂, -⟩ := Code.runs_forEach_cons.mp h
    obtain ⟨-, -, rfl, -⟩ := csuSetCsl_runs h₁
    rw [ih h₂, setCsl_counts, List.map_cons, List.count_cons]
    by_cases hn : n = c.toNat
    · subst hn
      cases p <;> simp <;> omega
    · have hne : ¬ c.toNat = n := fun h => hn h.symm
      simp [hn, hne]

/-! ## The log of a switch -/

/-- A step logs the state it leaves, and logs nothing when it stops. -/
theorem protStep_runs {env : Env} {x : ProtStep} {s s' : Sys} {w : List Event} {u : Unit}
    (h : Code.Runs (x.run env) s w u s') : w = [.prot s'] := by
  cases x with
  | setCsl c p => exact (csuSetCsl_runs h).2.2.2
  | addRegion r =>
    obtain ⟨w₁, ret, s₁, w₂, h₁, h₂, rfl⟩ := Code.runs_bind.mp h
    obtain ⟨rfl, -, rfl⟩ := Code.runs_pure.mp h₂
    rw [(emuAddRegion_runs h₁).1]
    rfl
  | removeRegion r => exact (emuRemoveRegion_runs h).1

theorem protStep_stops {env : Env} {x : ProtStep} {s : Sys} {w : List Event} {e : Fault}
    (h : Code.Stops (x.run env) s w e) : w = [] := by
  cases x with
  | setCsl c p => exact (csuSetCsl_stops h).1
  | addRegion r =>
    obtain k | ⟨_, _, _, _, -, k, -⟩ := Code.stops_bind.mp h
    · exact absurd k (@emuAddRegion_total _ _ _ _ _ _ _)
    · exact absurd k Code.stops_pure
  | removeRegion r => exact absurd h (@emuRemoveRegion_total _ _ _ _ _ _)

/-- The `k`-th state that a list of steps logs is the state after the first `k + 1` of them. -/
theorem protSteps_log {env : Env} {xs : List ProtStep} {s t : Sys} {k : Nat}
    (h : (protStates (Code.forEach (ProtStep.run env) xs s).events)[k]? = some t) :
    ∃ w, Code.Runs (Code.forEach (ProtStep.run env) (xs.take (k + 1))) s w () t := by
  induction xs generalizing s k with
  | nil => cases h
  | cons x xs ih =>
    rw [Code.forEach] at h
    rcases Code.runs_or_stops (x.run env) s with ⟨_, s₁, hx⟩ | ⟨e, hx⟩
    · rw [Code.events_bind_of_runs hx] at h
      rw [protStep_runs hx] at h hx
      cases k with
      | zero =>
        have hst : s₁ = t := Option.some.inj h
        subst hst
        exact ⟨_, Code.runs_forEach_cons.mpr ⟨_, _, [], hx, by simp, rfl⟩⟩
      | succ k =>
        obtain ⟨w, hw⟩ := ih h
        exact ⟨_, Code.runs_forEach_cons.mpr ⟨_, _, w, hx, hw, rfl⟩⟩
    · rw [Code.events_bind_of_stops hx, protStep_stops hx] at h
      cases h

/-- The events of a call are those of the steps it takes. -/
theorem dtEnableDevice_log {env : Env} {d : Device} {b : Bool} {s t : Sys} {k : Nat}
    (h : (protStates (dtEnableDevice env d b s).events)[k]? = some t) :
    s.enabled d ≠ b ∧ d.canProtect = true ∧ ∃ s₁ w, Code.Runs (dtEnableIrqs env d b) s [] () s₁ ∧
      Code.Runs (Code.forEach (ProtStep.run env) ((d.protSteps b).take (k + 1))) s₁ w () t := by
  have hget : (Code.get : Kernel Sys).Runs s [] s s := Code.runs_get.mpr ⟨rfl, rfl, rfl⟩
  rw [dtEnableDevice, Code.events_bind_of_runs hget, List.nil_append,
    Code.events_bind_of_silent fun _ _ => rfl, Code.runIf] at h
  by_cases hne : s.enabled d ≠ b
  · rw [if_pos hne] at h
    rcases Code.runs_or_stops (dtEnableIrqs env d b) s with ⟨_, s₁, hirq⟩ | ⟨e, hirq⟩
    · rw [Code.events_bind_of_runs hirq] at h
      rw [(dtEnableIrqs_runs hirq).1] at h hirq
      rw [List.nil_append, Code.events_bind_of_silent fun _ _ => rfl, Code.runIf] at h
      by_cases hp : d.canProtect = true
      · rw [if_pos hp, dtProtect_eq_protSteps] at h
        obtain ⟨w, hw⟩ := protSteps_log h
        exact ⟨hne, hp, s₁, w, hirq, hw⟩
      · rw [if_neg hp] at h
        cases h
    · rw [Code.events_bind_of_stops hirq, (dtEnableIrqs_stops hirq).1] at h
      cases h
  · rw [if_neg hne] at h
    cases h

/-! ## The regions of all holders -/

/-- The regions of the holders and those in transit are in the list. -/
theorem Ledger.subperm {env : Env} {s : Sys} {L : List Device} {X : List Int} {Y : List Region}
    (h : Ledger env s L X Y) (hn : s.NoFailure env) (hY : ∀ r ∈ Y, IsDenial r) :
    (L.flatMap Device.denials ++ Y).Subperm s.regions := by
  rw [List.subperm_ext_iff]
  intro r hr
  have hden : IsDenial r := by
    rcases List.mem_append.mp hr with hr | hr
    · obtain ⟨d, -, hd⟩ := List.mem_flatMap.mp hr
      obtain ⟨x, -, rfl⟩ := List.mem_map.mp hd
      rfl
    · exact hY r hr
  have hcount : (s.regions.count r : Int) = (L.flatMap Device.denials).count r + Y.count r :=
    h.denied hn r hden
  rw [List.count_append]
  omega

/-- While `d` is in transit with all its regions, and the other references are those of `L`, the
regions of all holders are in the list. -/
theorem guarded_of_ledger {env : Env} {s : Sys} {L : List Device} {X : List Int}
    {Y : List Region} {held : Device → Nat → Int} {d : Device} (h : Ledger env s L X Y)
    (hn : s.NoFailure env) (hY : ∀ r ∈ Y, IsDenial r)
    (hL : ∀ e, e.canProtect = true → (∃ n, 0 < held e n) → e ∈ L ∨ (e = d ∧ Y = d.denials)) :
    s.Guarded held := by
  intro M hM hmem
  refine List.Subperm.trans ?_ (h.subperm hn hY)
  by_cases hd : d ∈ M ∧ d ∉ L
  · -- `d` itself is among them: its regions are those in transit
    have hY' : Y = d.denials := by
      rcases hL d (hmem d hd.1).1 (hmem d hd.1).2 with hdL | ⟨-, hY'⟩
      · exact absurd hdL hd.2
      · exact hY'
    have hsub : M.Subperm (d :: L) := by
      refine hM.subperm fun e he => ?_
      rcases hL e (hmem e he).1 (hmem e he).2 with heL | ⟨rfl, -⟩
      · exact List.mem_cons_of_mem d heL
      · exact List.mem_cons_self
    refine (subperm_flatMap hsub Device.denials).trans ?_
    rw [List.flatMap_cons, hY']
    exact List.perm_append_comm.subperm
  · have hsub : M.Subperm L := by
      refine hM.subperm fun e he => ?_
      rcases hL e (hmem e he).1 (hmem e he).2 with heL | ⟨rfl, -⟩
      · exact heL
      · by_contra heL
        exact hd ⟨he, heL⟩
    refine (subperm_flatMap hsub Device.denials).trans ?_
    exact (List.sublist_append_left _ _).subperm

/-! ## One switch -/

/-- Between two calls the devices that hold references are the disabled ones, and they hold all of
theirs. -/
structure Sys.Referenced (env : Env) (X : List Int) (s : Sys) (held : Device → Nat → Int)
    (L : List Device) : Prop where
  accounts : Accounts env True X s L
  holders : ∀ d ∈ L, ∀ n, held d n = d.cslCount n
  others : ∀ d, d.canProtect = true → d ∉ L → ∀ n, held d n = 0

theorem Sys.Referenced.mem {env : Env} {X : List Int} {s : Sys} {held : Device → Nat → Int}
    {L : List Device} (h : s.Referenced env X held L) {d : Device} (hp : d.canProtect = true)
    (hd : ∃ n, 0 < held d n) : d ∈ L := by
  by_contra hdL
  obtain ⟨n, hn⟩ := hd
  rw [h.others d hp hdL n] at hn
  omega

section Switch

variable {env : Env} {X : List Int} {s t : Sys} {held : Device → Nat → Int} {L : List Device}
  {d : Device} {k : Nat} {w : List Event}

theorem denials_isDenial {rs : List Resource} :
    ∀ r ∈ rs.map (fun r => (⟨r.address.c0, r.size.c0, .denyAll⟩ : Region)), IsDenial r := by
  intro r hr
  obtain ⟨x, -, rfl⟩ := List.mem_map.mp hr
  rfl

/-- A device that gave all its CSLs back holds none. -/
theorem holding_released (hs : s.Referenced env X held L) (hd : d ∈ L) {s₁ : Sys} {u : Unit}
    (h : Code.Runs (Code.forEach (fun c => csuSetCsl env c false) d.info.csu) s w u s₁)
    (ht : t.csu = s₁.csu) (n : Nat) : holding held d s t d n = 0 := by
  have hcount := setCsls_counts h n
  rw [if_neg Bool.false_ne_true] at hcount
  rw [holding_self, hs.holders d hd, ht, hcount, Device.cslCount]
  omega

/-- Releasing a device: first its CSLs are given back, while all its regions are in the list; then
the regions are removed, when it holds no CSL any more. -/
theorem release_guarded (hmalloc : ∀ n, env.malloc n = true) (hs : s.Referenced env X held L)
    (hd : d ∈ L)
    (h : Code.Runs (Code.forEach (ProtStep.run env) ((d.protSteps true).take (k + 1))) s w () t) :
    t.Guarded (holding held d s t) := by
  have hopen : Ledger env s (L.erase d) (d.info.csu ++ X) d.denials := by
    refine ⟨hs.accounts.ledger.csl.opened hd, fun hn => ?_⟩
    have := (hs.accounts.ledger.denied hn).opened hd
    rwa [List.append_nil] at this
  have hn : t.NoFailure env := fun n _ => hmalloc n
  have hother : ∀ e, e ≠ d → e.canProtect = true → (∃ n, 0 < held e n) → e ∈ L.erase d := by
    intro e hed hp he
    exact (List.mem_erase_of_ne hed).mpr (hs.mem hp he)
  rw [Device.protSteps, if_pos rfl, List.take_append, ← List.map_take, ← List.map_take,
    List.length_map] at h
  rw [Code.forEach_append, Code.forEach_map, Code.forEach_map] at h
  obtain ⟨w₁, _, s₁, w₂, h₁, h₂, rfl⟩ := Code.runs_bind.mp h
  by_cases hk : k + 1 ≤ d.info.csu.length
  · -- some CSLs are given back, no region is removed yet
    rw [Nat.sub_eq_zero_of_le hk, List.take_zero] at h₂
    obtain ⟨-, rfl⟩ := Code.runs_forEach_nil.mp h₂
    have hl : Ledger env s (L.erase d) (d.info.csu.take (k + 1) ++ (d.info.csu.drop (k + 1) ++ X))
        d.denials := by
      rwa [← List.append_assoc, List.take_append_drop]
    refine guarded_of_ledger (d := d) (releaseCsls_ledger h₁ hl).1 hn denials_isDenial ?_
    intro e hp he
    by_cases hed : e = d
    · exact Or.inr ⟨hed, rfl⟩
    · rw [holding_of_ne held hed] at he
      exact Or.inl (hother e hed hp he)
  · rw [List.take_of_length_le (by omega)] at h₁
    have hl₁ := (releaseCsls_ledger h₁ hopen).1
    rw [Device.denials, ← List.take_append_drop (k + 1 - d.info.csu.length) d.info.resources,
      List.map_append] at hl₁
    obtain ⟨hl₂, hcsu, -⟩ := removeDenials_ledger h₂ hl₁
    refine guarded_of_ledger (d := d) hl₂ hn denials_isDenial ?_
    intro e hp he
    by_cases hed : e = d
    · subst hed
      obtain ⟨n, hpos⟩ := he
      rw [holding_released hs hd h₁ hcsu n] at hpos
      omega
    · rw [holding_of_ne held hed] at he
      exact Or.inl (hother e hed hp he)

/-- Protecting a device: first its regions are added, while it holds no CSL; then its CSLs are
taken, when all regions are in the list. -/
theorem protect_guarded (hmalloc : ∀ n, env.malloc n = true) (hs : s.Referenced env X held L)
    (h : Code.Runs (Code.forEach (ProtStep.run env) ((d.protSteps false).take (k + 1))) s w () t) :
    t.Guarded (holding held d s t) := by
  have hn : t.NoFailure env := fun n _ => hmalloc n
  rw [Device.protSteps, if_neg Bool.false_ne_true, List.take_append, ← List.map_take,
    ← List.map_take, List.length_map] at h
  rw [Code.forEach_append, Code.forEach_map, Code.forEach_map] at h
  obtain ⟨w₁, _, s₁, w₂, h₁, h₂, rfl⟩ := Code.runs_bind.mp h
  obtain ⟨hl₁, hcsu, -⟩ := addDenials_ledger h₁ hs.accounts.ledger
  rw [List.append_nil] at hl₁
  by_cases hk : k + 1 ≤ d.info.resources.length
  · rw [Nat.sub_eq_zero_of_le hk, List.take_zero] at h₂
    obtain ⟨-, rfl⟩ := Code.runs_forEach_nil.mp h₂
    refine guarded_of_ledger (d := d) hl₁ hn denials_isDenial ?_
    intro e hpe he
    rw [holding_unchanged hcsu] at he
    exact Or.inl (hs.mem hpe he)
  · rw [List.take_of_length_le (by omega)] at hl₁
    refine guarded_of_ledger (d := d) (protectCsls_ledger h₂ hl₁).1 hn denials_isDenial ?_
    intro e hpe he
    by_cases hed : e = d
    · exact Or.inr ⟨hed, rfl⟩
    · rw [holding_of_ne held hed] at he
      exact Or.inl (hs.mem hpe he)

theorem Sys.Referenced.lines (hs : s.Referenced env X held L) (h : LinesOnly s t) :
    t.Referenced env X held L where
  accounts := hs.accounts.congr h.enabled (by rw [h.rest]) (by rw [h.rest]) h.policyOnly.allocs
  holders := hs.holders
  others := hs.others

/-- A whole release. -/
theorem Sys.Referenced.release (hs : s.Referenced env X held L) (hp : d.canProtect = true)
    (hoff : s.enabled d = false) (h : Code.Runs (dtProtect env d true) s w () t) :
    (t.flagged d true).Referenced env X (holding held d s t) (L.erase d) := by
  have hd : d ∈ L := (hs.accounts.mem d).mpr ⟨hp, hoff⟩
  have hself : ∀ n, holding held d s t d n = 0 := by
    obtain ⟨_, _, s₁, _, h₁, h₂, -⟩ := Code.runs_bind.mp h
    refine fun n => holding_released hs hd h₁ ?_ n
    exact Code.within_forEach (Code.keeps_closed (·.csu)) (fun r _ _ _ _ _ hr => by
      rw [Code.Keeps, (emuRemoveRegion_runs hr).2]) h₂
  refine ⟨(hs.accounts.release hp hoff h).2.1, fun e he => ?_, fun e hpe he => ?_⟩
  · obtain ⟨hed, heL⟩ := hs.accounts.nodup.mem_erase_iff.mp he
    rw [holding_of_ne held hed]
    exact hs.holders e heL
  · by_cases hed : e = d
    · rw [hed]
      exact hself
    · rw [holding_of_ne held hed]
      exact hs.others e hpe fun heL => he ((List.mem_erase_of_ne hed).mpr heL)

/-- A whole protection. -/
theorem Sys.Referenced.protect (hs : s.Referenced env X held L) (hp : d.canProtect = true)
    (hon : s.enabled d = true) (h : Code.Runs (dtProtect env d false) s w () t) :
    (t.flagged d false).Referenced env X (holding held d s t) (d :: L) := by
  have hd : d ∉ L := by
    intro hd
    have hoff := ((hs.accounts.mem d).mp hd).2
    rw [hon] at hoff
    cases hoff
  have hself : ∀ n, holding held d s t d n = d.cslCount n := by
    obtain ⟨_, _, s₁, _, h₁, h₂, -⟩ := Code.runs_bind.mp h
    intro n
    have hcount := setCsls_counts h₂ n
    rw [if_pos rfl, (addDenials_ledger h₁ hs.accounts.ledger).2.1] at hcount
    rw [holding_self, hs.others d hp hd, hcount, Device.cslCount]
    omega
  refine ⟨(hs.accounts.protect hp hon h).2, fun e he => ?_, fun e hpe he => ?_⟩
  · by_cases hed : e = d
    · rw [hed]
      exact hself
    · rw [holding_of_ne held hed]
      exact hs.holders e ((List.mem_cons.mp he).resolve_left hed)
  · have hed : e ≠ d := fun hed => he (hed ▸ List.mem_cons_self)
    rw [holding_of_ne held hed]
    exact hs.others e hpe fun heL => he (List.mem_cons_of_mem d heL)

end Switch

/-- A completed call keeps references and flags together. -/
theorem switchStep_referenced {env : Env} {X : List Int} {x x' : Sys × (Device → Nat → Int)}
    {op : Device × Bool} (h : switchStep env x op x')
    (hs : ∃ L, x.1.Referenced env X x.2 L) : ∃ L, x'.1.Referenced env X x'.2 L := by
  obtain ⟨s, held⟩ := x
  obtain ⟨s', held'⟩ := x'
  obtain ⟨d, b⟩ := op
  obtain ⟨L, hs⟩ := hs
  obtain ⟨w, r, hrun, hheld⟩ := h
  dsimp only at hrun hheld hs ⊢
  subst hheld
  obtain ⟨-, ⟨-, rfl, rfl⟩ | ⟨hne, s₁, s₂, hirq, hprot, rfl⟩⟩ := dtEnableDevice_runs hrun
  · rw [holding_unchanged rfl]
    exact ⟨L, hs⟩
  have hlines := (dtEnableIrqs_runs hirq).2.1
  have hs₁ := hs.lines hlines
  have hcsu₁ : s₁.csu = s.csu := by rw [hlines.rest]
  change ∃ L, (s₂.flagged d b).Referenced env X (holding held d s (s₂.flagged d b)) L
  rw [← holding_of_csu_eq hcsu₁ (show s₂.csu = (s₂.flagged d b).csu from rfl)]
  rcases hprot with ⟨hp, hprot⟩ | ⟨hp, rfl, rfl⟩
  · cases b with
    | true =>
      have hoff : s₁.enabled d = false := by
        rw [hlines.enabled]
        simpa using hne
      exact ⟨_, hs₁.release hp hoff hprot⟩
    | false =>
      have hon : s₁.enabled d = true := by
        rw [hlines.enabled]
        simpa using hne
      exact ⟨_, hs₁.protect hp hon hprot⟩
  · rw [holding_unchanged rfl]
    exact ⟨L, hs₁.accounts.unprotected hp b, hs₁.holders, hs₁.others⟩

/-- In every sequence of calls from boot, after every single step of the next call, the deny regions
of all devices that hold a reference on a CSL are in the region list. What a device holds is read off
the counters of the CSU. -/
theorem denials_before_csls {env : Env} {s₀ s t : Sys} {calls : List (Device × Bool)}
    {held : Device → Nat → Int} {d : Device} {enable : Bool} (hmalloc : ∀ n, env.malloc n = true)
    (hboot : Booted env s₀) (hcalls : Steps (switchStep env) (s₀, fun _ _ => 0) calls (s, held))
    (hstep : t ∈ protStates (dtEnableDevice env d enable s).events) :
    t.Guarded (holding held d s t) := by
  obtain ⟨L₀, ha⟩ := hboot.settled.balanced
  have hstart : ∃ L, s₀.Referenced env ([] ++ s₀.portCsls) (fun _ _ => 0) L := by
    refine ⟨L₀, ha, fun e he => ?_, fun _ _ _ _ => rfl⟩
    have hoff := ((ha.mem e).mp he).2
    rw [hboot.enabled e] at hoff
    cases hoff
  obtain ⟨L, hs⟩ := hcalls.invariant
    (I := fun x => ∃ L, x.1.Referenced env ([] ++ s₀.portCsls) x.2 L)
    (fun op _ x x' hx hI => switchStep_referenced hx hI) hstart
  obtain ⟨k, hk⟩ := List.mem_iff_getElem?.mp hstep
  obtain ⟨hne, hp, s₁, w, hirq, hrun⟩ := dtEnableDevice_log hk
  have hlines := (dtEnableIrqs_runs hirq).2.1
  have hs₁ := hs.lines hlines
  have hcsu₁ : s₁.csu = s.csu := by rw [hlines.rest]
  rw [← holding_of_csu_eq hcsu₁ rfl]
  cases enable with
  | true =>
    have hoff : s.enabled d = false := by simpa using hne
    exact release_guarded hmalloc hs₁ ((hs.accounts.mem d).mpr ⟨hp, hoff⟩) hrun
  | false => exact protect_guarded hmalloc hs₁ hrun

theorem switchStep_after {env : Env} {s : Sys} {held : Device → Nat → Int} {d : Device} {b : Bool}
    (h : (dtEnableDevice env d b).succeeds s = true) :
    switchStep env (s, held) (d, b)
      ((dtEnableDevice env d b).after s, holding held d s ((dtEnableDevice env d b).after s)) := by
  obtain ⟨r, hrun⟩ := Code.runs_after h
  exact ⟨_, r, hrun, rfl⟩

/-- The board without its first radio, and the references then. -/
def Board.noWlan : Sys := (dtEnableDevice imx6 Board.wlan false).after (Board.booted imx6 0)

def Board.noWlanHeld : Device → Nat → Int :=
  holding (fun _ _ => 0) Board.wlan (Board.booted imx6 0) Board.noWlan

theorem Board.step_noWlan : switchStep imx6 (Board.booted imx6 0, fun _ _ => 0) (Board.wlan, false)
    (Board.noWlan, Board.noWlanHeld) := by
  have hok : (dtEnableDevice imx6 Board.wlan false).succeeds (Board.booted imx6 0) = true := by
    decide +kernel
  exact switchStep_after hok

/-- The second step of disabling the other radio takes its CSL: both radios hold a reference then,
and the regions of both are in the list. -/
theorem denials_before_csls_bluetooth :
    ∃ t held, (protStates (dtEnableDevice imx6 Board.bluetooth false Board.noWlan).events)[1]? =
        some t ∧
      held = holding Board.noWlanHeld Board.bluetooth Board.noWlan t ∧
      held Board.wlan 12 = 1 ∧ held Board.bluetooth 3 = 1 ∧ t.Guarded held := by
  have hheld : ∀ t ∈ (protStates
      (dtEnableDevice imx6 Board.bluetooth false Board.noWlan).events)[1]?,
      holding Board.noWlanHeld Board.bluetooth Board.noWlan t Board.wlan 12 = 1 ∧
        holding Board.noWlanHeld Board.bluetooth Board.noWlan t Board.bluetooth 3 = 1 := by
    decide +kernel
  have hsome : ((protStates
      (dtEnableDevice imx6 Board.bluetooth false Board.noWlan).events)[1]?).isSome = true := by
    decide +kernel
  obtain ⟨t, ht⟩ := Option.isSome_iff_exists.mp hsome
  obtain ⟨hwlan, hbluetooth⟩ := hheld t ht
  refine ⟨t, _, ht, rfl, hwlan, hbluetooth, ?_⟩
  exact denials_before_csls (fun _ => rfl) Board.booted_ok (.cons Board.step_noWlan (.nil _))
    (List.mem_of_getElem? ht)

end SeCloak
