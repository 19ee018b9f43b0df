import SeCloak.Drivers.DtHolders

/-!
# How switching a device stops

The faults of `dt_enable_device`: an interrupt that its chip does not have, a CSL number that does
not exist, a counter that would become negative, and the assert of `gic_it_enable`, which is made
after `irq_unsecure` has moved the interrupt to group 1.
-/

namespace SeCloak
open Misc

theorem PolicyOnly.noLine {s s' : Sys} {d : IrqDesc} {e : Fault} (h : PolicyOnly s s') :
    s'.NoLine d e ↔ s.NoLine d e := by
  have hchip : s'.chip = s.chip := by rw [h.rest]
  have hline : s'.hasLine d.line ↔ s.hasLine d.line := by
    cases d.line with
    | gic it => exact Iff.rfl
    | gpio n pin =>
      have hsome := congrArg Option.isSome (h.fixed n)
      rw [Option.isSome_map, Option.isSome_map] at hsome
      change (pin < 32 ∧ _) ↔ (pin < 32 ∧ _)
      rw [hsome]
  unfold Sys.NoLine
  rw [hchip, hline]

/-- The assert of `gic_it_enable` that a switch runs into. -/
def IrqInfo.Asserts (env : Env) (enable : Bool) (i : IrqInfo) (e : Fault) : Prop :=
  enable = true ∧ e = .assertion ∧ env.asserts = true ∧ ∃ it, i.desc.line = .gic it

section Irqs

variable {env : Env} {enable : Bool} {s : Sys} {w : List Event} {e : Fault}

theorem dtEnableIrq_stops {i : IrqInfo} (h : Code.Stops (dtEnableIrq env enable i) s w e) :
    w = [] ∧ (s.NoLine i.desc e ∨ i.Asserts env enable e) := by
  unfold dtEnableIrq at h
  cases enable with
  | true =>
    simp only [if_true] at h
    obtain k | ⟨w₁, r, s₁, w₂, h₁, h₂, rfl⟩ := Code.stops_bind.mp h
    · obtain ⟨hw, hno⟩ := irqUnsecure_stops k
      exact ⟨hw, Or.inl hno⟩
    obtain k | ⟨_, _, _, _, -, k, -⟩ := Code.stops_bind.mp h₂
    · obtain ⟨rfl, -, hs₁⟩ := irqUnsecure_runs h₁
      have hlines : LinesOnly s s₁ := hs₁ ▸ linesOnly_onLine _ _ _ (by simp)
      obtain ⟨rfl, hno | ⟨he, ha, it, hgic, -⟩⟩ := irqEnable_stops k
      · exact ⟨rfl, Or.inl (hlines.policyOnly.noLine.mp hno)⟩
      · exact ⟨rfl, Or.inr ⟨rfl, he, ha, it, hgic⟩⟩
    · exact absurd k Code.stops_pure
  | false =>
    simp only [Bool.false_eq_true, if_false] at h
    obtain k | ⟨w₁, r, s₁, w₂, h₁, h₂, rfl⟩ := Code.stops_bind.mp h
    · obtain ⟨hw, hno⟩ := irqDisable_stops k
      exact ⟨hw, Or.inl hno⟩
    obtain k | ⟨_, _, _, _, -, k, -⟩ := Code.stops_bind.mp h₂
    · obtain ⟨rfl, -, hs₁⟩ := irqDisable_runs h₁
      have hlines : LinesOnly s s₁ := hs₁ ▸ linesOnly_onLine _ _ _ (by simp)
      obtain ⟨rfl, hno⟩ := irqSecure_stops k
      exact ⟨rfl, Or.inl (hlines.policyOnly.noLine.mp hno)⟩
    · exact absurd k Code.stops_pure

theorem dtEnableIrqs_stops {d : Device} (h : Code.Stops (dtEnableIrqs env d enable) s w e) :
    w = [] ∧ ∃ i ∈ d.info.irqs, s.NoLine i.desc e ∨ i.Asserts env enable e := by
  unfold dtEnableIrqs at h
  generalize d.info.irqs = is at h
  induction is generalizing s w with
  | nil => exact absurd h Code.stops_forEach_nil
  | cons i is ih =>
    obtain k | ⟨w₁, _, s₁, w₂, h₁, h₂, rfl⟩ := Code.stops_bind.mp h
    · obtain ⟨hw, hi⟩ := dtEnableIrq_stops k
      exact ⟨hw, i, List.mem_cons_self, hi⟩
    · obtain ⟨rfl, hlines, -⟩ := dtEnableIrq_runs h₁
      obtain ⟨rfl, j, hj, hno⟩ := ih h₂
      rw [hlines.policyOnly.noLine] at hno
      exact ⟨rfl, j, List.mem_cons_of_mem i hj, hno⟩

end Irqs

/-! ## CSLs -/

section Csls

variable {env : Env} {s : Sys} {w : List Event} {e : Fault} {L : List Device} {X : List Int}
  {Y : List Region}

/-- Giving back CSLs that are held never stops. -/
theorem releaseCsls_total {cs : List Int} (hcs : ∀ c ∈ cs, IsCsl c)
    (hl : Ledger env s L (cs ++ X) Y) :
    ¬ Code.Stops (Code.forEach (fun c => csuSetCsl env c false) cs) s w e := by
  induction cs generalizing s w with
  | nil => exact Code.stops_forEach_nil
  | cons c cs ih =>
    intro h
    obtain ⟨hc, hcs'⟩ := List.forall_mem_cons.mp hcs
    obtain k | ⟨w₁, _, s₁, w₂, h₁, h₂, -⟩ := Code.stops_bind.mp h
    · have hpos := hl.csl.pos hc (Or.inr List.mem_cons_self)
      obtain ⟨-, ⟨hno, -⟩ | ⟨-, hlt, -⟩⟩ := csuSetCsl_stops k
      · exact hno hc
      · omega
    · exact ih hcs' (csuSetCsl_release h₁ hl).1 h₂

theorem dtProtect_release_total {d : Device} (hcs : ∀ c ∈ d.info.csu, IsCsl c)
    (hl : Ledger env s L (d.info.csu ++ X) Y) : ¬ Code.Stops (dtProtect env d true) s w e := by
  intro h
  obtain k | ⟨_, _, _, _, -, k, -⟩ := Code.stops_bind.mp h
  · exact releaseCsls_total hcs hl k
  · obtain ⟨_, -, _, _, _, k', -⟩ := Code.stops_forEach_mem k
    exact emuRemoveRegion_total _ _ _ k'

/-- Protecting a device stops only on a CSL number that does not exist. -/
theorem dtProtect_protect_stops {d : Device} (h : Code.Stops (dtProtect env d false) s w e) :
    (∃ c ∈ d.info.csu, ¬ IsCsl c) ∧ (e = .assertion ∨ e = .undefined) := by
  obtain k | ⟨_, _, _, _, -, k, -⟩ := Code.stops_bind.mp h
  · obtain ⟨_, -, _, _, _, k', -⟩ := Code.stops_forEach_mem k
    obtain k'' | ⟨_, _, _, _, -, k'', -⟩ := Code.stops_bind.mp k'
    · exact absurd k'' (@emuAddRegion_total _ _ _ _ _ _ _)
    · exact absurd k'' Code.stops_pure
  · obtain ⟨c, hc, _, _, _, k', -⟩ := Code.stops_forEach_mem k
    obtain ⟨-, ⟨hno, he⟩ | ⟨hp, -⟩⟩ := csuSetCsl_stops k'
    · exact ⟨⟨c, hc, hno⟩, he⟩
    · cases hp

end Csls

/-! ## Switches -/

/-- The faults of switching a device. -/
def Device.Faulty (env : Env) (s : Sys) (enable : Bool) (d : Device) (e : Fault) : Prop :=
  (∃ i ∈ d.info.irqs, s.NoLine i.desc e ∨ i.Asserts env enable e) ∨
    (enable = false ∧ (∃ c ∈ d.info.csu, ¬ IsCsl c) ∧ (e = .assertion ∨ e = .undefined))

theorem dtEnableDevice_stops {env : Env} {clean : Prop} {X : List Int} {d : Device} {b : Bool}
    {s : Sys} {w : List Event} {e : Fault} (hb : Balanced env clean X s)
    (h : Code.Stops (dtEnableDevice env d b) s w e) : s.enabled d ≠ b ∧ d.Faulty env s b e := by
  rw [dtEnableDevice, Code.stops_get_bind] at h
  obtain k | ⟨_, _, _, _, -, k, -⟩ := Code.stops_bind.mp h
  swap
  · exact absurd k Code.stops_pure
  obtain ⟨hne, k⟩ := Code.stops_runIf.mp k
  refine ⟨hne, ?_⟩
  obtain k₁ | ⟨w₁, _, s₁, w₂, h₁, k₁, -⟩ := Code.stops_bind.mp k
  · exact Or.inl (dtEnableIrqs_stops k₁).2
  obtain ⟨-, hlines, -⟩ := dtEnableIrqs_runs h₁
  obtain k₂ | ⟨_, _, _, _, -, k₂, -⟩ := Code.stops_bind.mp k₁
  swap
  · exact absurd k₂ Code.stops_modify
  obtain ⟨hp, k₂⟩ := Code.stops_runIf.mp k₂
  cases b with
  | true =>
    -- the device is one of the holders
    obtain ⟨L, ha⟩ := hb
    have hoff : s.enabled d = false := by simpa using hne
    have hd : d ∈ L := (ha.mem d).mpr ⟨hp, hoff⟩
    have hopen : Ledger env s (L.erase d) (d.info.csu ++ X) (d.denials ++ []) :=
      ⟨ha.ledger.csl.opened hd, fun hn => (ha.ledger.denied hn).opened hd⟩
    have hopen₁ : Ledger env s₁ (L.erase d) (d.info.csu ++ X) (d.denials ++ []) :=
      hopen.congr (by rw [hlines.rest]) (by rw [hlines.rest]) hlines.policyOnly.allocs
    exact absurd k₂ (dtProtect_release_total (ha.range d hd) hopen₁)
  | false => exact Or.inr ⟨rfl, dtProtect_protect_stops k₂⟩

/-- A fault of switching some device of the tree; a device that is to be enabled is disabled in the
state. -/
def PolicyFault (env : Env) (t : DeviceTable) (b : Bool) (s : Sys) (e : Fault) : Prop :=
  ∃ d ∈ t.devices, ∃ x ∈ d.chain, (b = true → s.enabled x = false) ∧ x.Faulty env s b e

theorem PolicyFault.back {env : Env} {t : DeviceTable} {b : Bool} {s s' : Sys} {e : Fault}
    (h : PolicyFault env t b s' e) (hpol : PolicyOnly s s')
    (hflags : b = true → ∀ x, s'.enabled x = false → s.enabled x = false) :
    PolicyFault env t b s e := by
  obtain ⟨d, hd, x, hx, hoff, hfault⟩ := h
  refine ⟨d, hd, x, hx, fun hb => hflags hb x (hoff hb), ?_⟩
  rcases hfault with ⟨i, hi, hno | ha⟩ | hcsl
  · exact Or.inl ⟨i, hi, Or.inl (hpol.noLine.mp hno)⟩
  · exact Or.inl ⟨i, hi, Or.inr ha⟩
  · exact Or.inr hcsl

section Tree

variable {env : Env} {clean : Prop} {X : List Int} {t : DeviceTable} {b : Bool}

theorem dtEnableDevice_stopsOnly {d x : Device} (hd : d ∈ t.devices) (hx : x ∈ d.chain) :
    Code.StopsOnly (Balanced env clean X) (PolicyFault env t b) (dtEnableDevice env x b) where
  stops s w e hs h := by
    obtain ⟨hne, hfault⟩ := dtEnableDevice_stops hs h
    refine ⟨d, hd, x, hx, fun hb => ?_, hfault⟩
    subst hb
    simpa using hne
  keeps s w r s' hs h := dtEnableDevice_balanced h hs
  back s w r s' e hs h hq := by
    refine hq.back (dtEnableDevice_policyOnly h) fun hb y hy => ?_
    subst hb
    by_contra hon
    have hflag := (dtEnableDevice_switched h).flags y (by simpa using hon)
    rw [hflag] at hy
    cases hy

/-- The loop over the parents stops only in a device of the chain. -/
theorem dtEnableParents_stopsOnly {I : Sys → Prop} {Q : Sys → Fault → Prop} {d : Device}
    (hd : ∀ x ∈ d.chain, Code.StopsOnly I Q (dtEnableDevice env x b)) :
    Code.StopsOnly I Q (dtEnableParents env b d) := by
  induction d with
  | root i =>
    exact Code.stopsOnly_bind (hd _ (self_mem_chain _)) fun _ => Code.stopsOnly_pure ()
  | child i p ih =>
    refine Code.stopsOnly_bind_of (hd _ (self_mem_chain _)) fun s w r s' h => ?_
    rw [(dtEnableDevice_runs h).1]
    by_cases hp : (Device.child i p).canProtect = true
    · rw [if_pos hp]
      exact Code.stopsOnly_pure ()
    · rw [if_neg hp]
      refine ih fun x hx => hd x ?_
      rw [Device.chain, if_neg hp]
      exact List.mem_cons_of_mem _ hx

theorem dtEnableClass_stopsOnly {name : CString} :
    Code.StopsOnly (Balanced env clean X) (PolicyFault env t b) (dtEnableClass env t name b) := by
  refine Code.stopsOnly_forEach fun d hd => Code.stopsOnly_runIf ?_
  refine Code.stopsOnly_get_bind fun s => Code.stopsOnly_runIf ?_
  exact dtEnableParents_stopsOnly fun x hx => dtEnableDevice_stopsOnly hd hx

end Tree

end SeCloak
