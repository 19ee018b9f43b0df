import SeCloak.Drivers.Dt

/-!
# What switching a device and a class changes

The flags after `dt_enable_device`, the loop over the parents and `dt_enable_class`; the part of
the state that none of them touches (`PolicyOnly`); and what they do to the interrupt lines.
Lines have no reference counts, so the effect of a switch is stated as a relation between the
flags and the lines before and after, which composes over any sequence of switches in one
direction (`Switched`).
-/

namespace SeCloak
open Misc

/-! ## Frame -/

/-- What the functions of `dt.c` may change: flags, CSLs, regions and lines. -/
structure PolicyOnly (s s' : Sys) : Prop where
  rest : s' = { s with
    enabled := s'.enabled, csu := s'.csu, regions := s'.regions, gic := s'.gic,
    gpio := { s.gpio with port := s'.gpio.port }, allocs := s'.allocs }
  fixed : ∀ n, (s'.gpio.port n).map Port.fixed = (s.gpio.port n).map Port.fixed
  allocs : s.allocs ≤ s'.allocs
  spare : s'.csu.spare = s.csu.spare

theorem PolicyOnly.refl (s : Sys) : PolicyOnly s s := ⟨rfl, fun _ => rfl, Nat.le_refl _, rfl⟩

theorem PolicyOnly.trans {s s' s'' : Sys} (h : PolicyOnly s s') (h' : PolicyOnly s' s'') :
    PolicyOnly s s'' := by
  refine ⟨?_, fun n => (h'.fixed n).trans (h.fixed n), Nat.le_trans h.allocs h'.allocs,
    h'.spare.trans h.spare⟩
  rw [h'.rest, h.rest]

theorem policyOnly_closed :
    Code.Closed (fun s _ s' => PolicyOnly s s' : Sys → List Event → Sys → Prop) where
  nil := PolicyOnly.refl
  append := PolicyOnly.trans

theorem LinesOnly.policyOnly {s s' : Sys} (h : LinesOnly s s') : PolicyOnly s s' := by
  have hallocs : s'.allocs = s.allocs := by rw [h.rest]
  have hcsu : s'.csu = s.csu := by rw [h.rest]
  refine ⟨?_, h.fixed, Nat.le_of_eq hallocs.symm, by rw [hcsu]⟩
  rw [h.rest]

theorem LinesOnly.enabled {s s' : Sys} (h : LinesOnly s s') : s'.enabled = s.enabled := by
  rw [h.rest]

/-! ## The interrupts of a device -/

/-- The interrupt lines a device lists. -/
def Device.lines (d : Device) : List Line := d.info.irqs.map (·.desc.line)

theorem dtEnableIrq_runs {env : Env} {b : Bool} {i : IrqInfo} {s s' : Sys} {w : List Event}
    {u : Unit} (h : Code.Runs (dtEnableIrq env b i) s w u s') :
    w = [] ∧ LinesOnly s s' ∧ ∀ l,
      s'.lineEnabled l = (if l = i.desc.line then b else s.lineEnabled l) ∧
      s'.lineSecured l = (if l = i.desc.line then !b else s.lineSecured l) := by
  unfold dtEnableIrq at h
  cases b with
  | true =>
    simp only [if_true] at h
    obtain ⟨w₁, r₁, s₁, w₂, h₁, h₂, rfl⟩ := Code.runs_bind.mp h
    obtain ⟨w₃, r₂, s₂, w₄, h₂, h₃, rfl⟩ := Code.runs_bind.mp h₂
    obtain ⟨rfl, -, rfl⟩ := Code.runs_pure.mp h₃
    have hlines := irqUnsecure_enable_lines h₁ h₂
    obtain ⟨rfl, -, hs₁⟩ := irqUnsecure_runs h₁
    obtain ⟨rfl, -, hs₂⟩ := irqEnable_runs h₂
    refine ⟨rfl, ?_, fun l => ?_⟩
    · rw [hs₂, hs₁]
      exact (linesOnly_onLine _ _ _ (by simp)).trans (linesOnly_onLine _ _ _ (by simp))
    · rw [(hlines l).1, (hlines l).2]
      by_cases hl : l = i.desc.line <;> simp [hl]
  | false =>
    simp only [Bool.false_eq_true, if_false] at h
    obtain ⟨w₁, r₁, s₁, w₂, h₁, h₂, rfl⟩ := Code.runs_bind.mp h
    obtain ⟨w₃, r₂, s₂, w₄, h₂, h₃, rfl⟩ := Code.runs_bind.mp h₂
    obtain ⟨rfl, -, rfl⟩ := Code.runs_pure.mp h₃
    have hlines := irqDisable_secure_lines h₁ h₂
    obtain ⟨rfl, -, hs₁⟩ := irqDisable_runs h₁
    obtain ⟨rfl, -, hs₂⟩ := irqSecure_runs h₂
    refine ⟨rfl, ?_, fun l => ?_⟩
    · rw [hs₂, hs₁]
      exact (linesOnly_onLine _ _ _ (by simp)).trans (linesOnly_onLine _ _ _ (by simp))
    · rw [(hlines l).1, (hlines l).2]
      by_cases hl : l = i.desc.line <;> simp [hl]

/-- The loop over the interrupts of a device: its lines end in the state asked for, every other
line is as it was. -/
theorem dtEnableIrqs_runs {env : Env} {d : Device} {b : Bool} {s s' : Sys} {w : List Event}
    {u : Unit} (h : Code.Runs (dtEnableIrqs env d b) s w u s') :
    w = [] ∧ LinesOnly s s' ∧ ∀ l,
      s'.lineEnabled l = (if l ∈ d.lines then b else s.lineEnabled l) ∧
      s'.lineSecured l = (if l ∈ d.lines then !b else s.lineSecured l) := by
  unfold dtEnableIrqs at h
  unfold Device.lines
  generalize d.info.irqs = is at h
  induction is generalizing s w with
  | nil =>
    obtain ⟨rfl, rfl⟩ := Code.runs_forEach_nil.mp h
    exact ⟨rfl, LinesOnly.refl _, by simp⟩
  | cons i is ih =>
    obtain ⟨w₁, s₁, w₂, h₁, h₂, rfl⟩ := Code.runs_forEach_cons.mp h
    obtain ⟨rfl, hf₁, hl₁⟩ := dtEnableIrq_runs h₁
    obtain ⟨rfl, hf₂, hl₂⟩ := ih h₂
    refine ⟨rfl, hf₁.trans hf₂, fun l => ?_⟩
    rw [(hl₂ l).1, (hl₂ l).2, (hl₁ l).1, (hl₁ l).2]
    by_cases hl : l = i.desc.line <;> simp [hl]

/-! ## The protection of a device -/

theorem csuSetCsl_policyOnly {env : Env} {c : Int} {p : Bool} :
    Code.Within (csuSetCsl env c p) (fun s _ s' => PolicyOnly s s' ∧ s'.enabled = s.enabled ∧
      s'.gic = s.gic ∧ s'.gpio = s.gpio) := by
  intro s w u s' h
  obtain ⟨-, -, rfl, -⟩ := csuSetCsl_runs h
  exact ⟨⟨rfl, fun _ => rfl, Nat.le_refl _, setCsl_spare _ _ _⟩, rfl, rfl, rfl⟩

theorem emuAddRegion_policyOnly {env : Env} {base size : Word} {check : EmuCheck} :
    Code.Within (emuAddRegion env base size check) (fun s _ s' => PolicyOnly s s' ∧
      s'.enabled = s.enabled ∧ s'.gic = s.gic ∧ s'.gpio = s.gpio) := by
  intro s w u s' h
  obtain ⟨-, rfl⟩ := emuAddRegion_runs h
  exact ⟨⟨rfl, fun _ => rfl, Nat.le_succ _, rfl⟩, rfl, rfl, rfl⟩

theorem emuRemoveRegion_policyOnly {base size : Word} {check : EmuCheck} :
    Code.Within (emuRemoveRegion base size check) (fun s _ s' => PolicyOnly s s' ∧
      s'.enabled = s.enabled ∧ s'.gic = s.gic ∧ s'.gpio = s.gpio) := by
  intro s w u s' h
  obtain ⟨-, rfl⟩ := emuRemoveRegion_runs h
  exact ⟨⟨rfl, fun _ => rfl, Nat.le_refl _, rfl⟩, rfl, rfl, rfl⟩

theorem protectOnly_closed : Code.Closed (fun s _ s' => PolicyOnly s s' ∧
    s'.enabled = s.enabled ∧ s'.gic = s.gic ∧ s'.gpio = s.gpio :
      Sys → List Event → Sys → Prop) where
  nil s := ⟨PolicyOnly.refl s, rfl, rfl, rfl⟩
  append h h' := ⟨h.1.trans h'.1, h'.2.1.trans h.2.1, h'.2.2.1.trans h.2.2.1,
    h'.2.2.2.trans h.2.2.2⟩

/-- Protecting a device changes neither the flags nor the lines. -/
theorem dtProtect_policyOnly {env : Env} {d : Device} {b : Bool} :
    Code.Within (dtProtect env d b) (fun s _ s' => PolicyOnly s s' ∧
      s'.enabled = s.enabled ∧ s'.gic = s.gic ∧ s'.gpio = s.gpio) := by
  unfold dtProtect
  apply Code.within_ite
  · apply Code.within_bind protectOnly_closed
    · exact Code.within_forEach protectOnly_closed fun c _ => csuSetCsl_policyOnly
    · intro _
      exact Code.within_forEach protectOnly_closed fun r _ => emuRemoveRegion_policyOnly
  · apply Code.within_bind protectOnly_closed
    · refine Code.within_forEach protectOnly_closed fun r _ => ?_
      exact Code.within_bind protectOnly_closed emuAddRegion_policyOnly
        fun _ => Code.within_pure protectOnly_closed ()
    · intro _
      exact Code.within_forEach protectOnly_closed fun c _ => csuSetCsl_policyOnly

/-! ## `dt_enable_device` -/

/-- The two cases of `dt_enable_device`: the flag is as asked for already, or interrupts,
protection and flag are switched in this order. -/
theorem dtEnableDevice_runs {env : Env} {d : Device} {b r : Bool} {s s' : Sys} {w : List Event}
    (h : Code.Runs (dtEnableDevice env d b) s w r s') :
    r = d.canProtect ∧ ((s.enabled d = b ∧ w = [] ∧ s' = s) ∨
      (s.enabled d ≠ b ∧ ∃ s₁ s₂, Code.Runs (dtEnableIrqs env d b) s [] () s₁ ∧
        ((d.canProtect = true ∧ Code.Runs (dtProtect env d b) s₁ w () s₂) ∨
          (d.canProtect = false ∧ w = [] ∧ s₂ = s₁)) ∧
        s' = { s₂ with enabled := Function.update s₂.enabled d b })) := by
  rw [dtEnableDevice, Code.runs_get_bind] at h
  obtain ⟨w₁, _, s₁, w₂, h₁, h₂, rfl⟩ := Code.runs_bind.mp h
  obtain ⟨rfl, rfl, rfl⟩ := Code.runs_pure.mp h₂
  refine ⟨rfl, ?_⟩
  rcases Code.runs_runIf.mp h₁ with ⟨hne, h₁⟩ | ⟨heq, rfl, rfl⟩
  · obtain ⟨w₃, _, s₃, w₄, h₃, h₄, rfl⟩ := Code.runs_bind.mp h₁
    obtain ⟨w₅, _, s₅, w₆, h₅, h₆, rfl⟩ := Code.runs_bind.mp h₄
    obtain ⟨rfl, rfl⟩ := Code.runs_modify.mp h₆
    obtain ⟨rfl, -⟩ := dtEnableIrqs_runs h₃
    refine Or.inr ⟨hne, s₃, s₅, h₃, ?_, rfl⟩
    rcases Code.runs_runIf.mp h₅ with ⟨hp, h₅⟩ | ⟨hp, rfl, rfl⟩
    · exact Or.inl ⟨hp, by simpa using h₅⟩
    · exact Or.inr ⟨by simpa using hp, rfl, rfl⟩
  · exact Or.inl ⟨by simpa using heq, rfl, rfl⟩

/-- What the part of `dt_enable_device` before the flag is written leaves alone. -/
theorem dtEnableDevice_before_flag {env : Env} {d : Device} {b : Bool} {s s₁ s₂ : Sys}
    {w : List Event} (hirq : Code.Runs (dtEnableIrqs env d b) s [] () s₁)
    (hprot : (d.canProtect = true ∧ Code.Runs (dtProtect env d b) s₁ w () s₂) ∨
      (d.canProtect = false ∧ w = [] ∧ s₂ = s₁)) :
    PolicyOnly s s₂ ∧ s₂.enabled = s.enabled ∧ s₂.gic = s₁.gic ∧ s₂.gpio = s₁.gpio := by
  obtain ⟨-, hlines, -⟩ := dtEnableIrqs_runs hirq
  rcases hprot with ⟨-, hprot⟩ | ⟨-, -, rfl⟩
  · obtain ⟨hpol, hen, hgic, hgpio⟩ := dtProtect_policyOnly hprot
    exact ⟨hlines.policyOnly.trans hpol, hen.trans hlines.enabled, hgic, hgpio⟩
  · exact ⟨hlines.policyOnly, hlines.enabled, rfl, rfl⟩

theorem dtEnableDevice_enabled {env : Env} {d : Device} {b r : Bool} {s s' : Sys}
    {w : List Event} (h : Code.Runs (dtEnableDevice env d b) s w r s') :
    s'.enabled = Function.update s.enabled d b := by
  obtain ⟨-, ⟨heq, -, rfl⟩ | ⟨-, s₁, s₂, hirq, hprot, rfl⟩⟩ := dtEnableDevice_runs h
  · rw [← heq, Function.update_eq_self]
  · obtain ⟨-, hen, -⟩ := dtEnableDevice_before_flag hirq hprot
    rw [hen]

theorem dtEnableDevice_policyOnly {env : Env} {d : Device} {b : Bool} :
    Code.Within (dtEnableDevice env d b) (fun s _ s' => PolicyOnly s s') := by
  intro s w r s' h
  obtain ⟨-, ⟨-, -, rfl⟩ | ⟨-, s₁, s₂, hirq, hprot, rfl⟩⟩ := dtEnableDevice_runs h
  · exact PolicyOnly.refl _
  · obtain ⟨hpol, -⟩ := dtEnableDevice_before_flag hirq hprot
    exact hpol.trans ⟨rfl, fun _ => rfl, Nat.le_refl _, rfl⟩

/-! ## Lines -/

/-- The enable bit and the security of a line. -/
def Sys.line (s : Sys) (l : Line) : Bool × Bool := (s.lineEnabled l, s.lineSecured l)

theorem line_congr {s s' : Sys} (hgic : s'.gic = s.gic) (hgpio : s'.gpio = s.gpio) :
    s'.line = s.line := by
  funext l
  cases l with
  | gic it => simp only [Sys.line, Sys.lineEnabled, Sys.lineSecured, hgic]
  | gpio n pin => simp only [Sys.line, Sys.lineEnabled, Sys.lineSecured, hgpio]

/-- Devices were switched to `b` and none away from it: a device that was switched has all of
its lines enabled and unsecured if `b`, disabled and secured if not, and the other lines are as
they were. -/
structure Switched (b : Bool) (s s' : Sys) : Prop where
  flags : ∀ d, s.enabled d = b → s'.enabled d = b
  switched : ∀ d, s.enabled d ≠ b → s'.enabled d = b → ∀ l ∈ d.lines, s'.line l = (b, !b)
  kept : ∀ l, s'.line l = s.line l ∨
    (s'.line l = (b, !b) ∧ ∃ d, s.enabled d ≠ b ∧ s'.enabled d = b ∧ l ∈ d.lines)

theorem Switched.refl (b : Bool) (s : Sys) : Switched b s s where
  flags _ h := h
  switched _ h h' := absurd h' h
  kept _ := Or.inl rfl

theorem Switched.trans {b : Bool} {s s' s'' : Sys} (h : Switched b s s')
    (h' : Switched b s' s'') : Switched b s s'' where
  flags d hd := h'.flags d (h.flags d hd)
  switched d hd hd'' l hl := by
    by_cases hd' : s'.enabled d = b
    · have hon := h.switched d hd hd' l hl
      rcases h'.kept l with hk | ⟨hk, -⟩
      · rw [hk, hon]
      · exact hk
    · exact h'.switched d hd' hd'' l hl
  kept l := by
    rcases h'.kept l with hk' | ⟨hk', d, hd', hd'', hl⟩
    · rcases h.kept l with hk | ⟨hk, d, hd, hd', hl⟩
      · exact Or.inl (hk'.trans hk)
      · exact Or.inr ⟨hk'.trans hk, d, hd, h'.flags d hd', hl⟩
    · have hd : s.enabled d ≠ b := fun hd => hd' (h.flags d hd)
      exact Or.inr ⟨hk', d, hd, hd'', hl⟩

theorem switched_closed (b : Bool) :
    Code.Closed (fun s _ s' => Switched b s s' : Sys → List Event → Sys → Prop) where
  nil := Switched.refl b
  append := Switched.trans

theorem dtEnableDevice_switched {env : Env} {d : Device} {b : Bool} :
    Code.Within (dtEnableDevice env d b) (fun s _ s' => Switched b s s') := by
  intro s w r s' h
  have hen := dtEnableDevice_enabled h
  obtain ⟨-, ⟨-, -, rfl⟩ | ⟨hne, s₁, s₂, hirq, hprot, hs'⟩⟩ := dtEnableDevice_runs h
  · exact Switched.refl b _
  · obtain ⟨-, -, hgic, hgpio⟩ := dtEnableDevice_before_flag hirq hprot
    obtain ⟨-, -, hlines⟩ := dtEnableIrqs_runs hirq
    have hline : ∀ l, s'.line l = if l ∈ d.lines then (b, !b) else s.line l := by
      intro l
      have h₁ : s'.line l = s₁.line l := by
        rw [line_congr (s := s₁) (by rw [hs']; exact hgic) (by rw [hs']; exact hgpio)]
      rw [h₁, Sys.line, (hlines l).1, (hlines l).2]
      by_cases hl : l ∈ d.lines <;> simp [hl, Sys.line]
    have hflag : ∀ e, s'.enabled e = if e = d then b else s.enabled e := by
      intro e
      rw [hen, Function.update_apply]
    refine ⟨fun e he => ?_, fun e he he' l hl => ?_, fun l => ?_⟩
    · rw [hflag, he, ite_self]
    · have hed : e = d := by
        by_contra hed
        rw [hflag, if_neg hed] at he'
        exact he he'
      rw [hline, if_pos (hed ▸ hl)]
    · rw [hline]
      by_cases hl : l ∈ d.lines
      · exact Or.inr ⟨if_pos hl, d, hne, by rw [hflag, if_pos rfl], hl⟩
      · exact Or.inl (if_neg hl)

/-! ## Parents and classes -/

section Loops

variable {env : Env} {R : Sys → List Event → Sys → Prop} (hR : Code.Closed R)
include hR

/-- A relation that every switch of a single device is in contains the loop over the parents. -/
theorem within_dtEnableParents {b : Bool} (hd : ∀ d, Code.Within (dtEnableDevice env d b) R)
    (d : Device) : Code.Within (dtEnableParents env b d) R := by
  induction d with
  | root i => exact Code.within_bind hR (hd _) fun _ => Code.within_pure hR ()
  | child i p ih =>
    refine Code.within_bind hR (hd _) fun prot => ?_
    exact Code.within_ite (Code.within_pure hR ()) ih

theorem within_dtEnableClass {t : DeviceTable} {name : CString} {b : Bool}
    (hd : ∀ d, Code.Within (dtEnableDevice env d b) R) :
    Code.Within (dtEnableClass env t name b) R := by
  refine Code.within_forEach hR fun d _ => Code.within_runIf hR ?_
  refine Code.within_bind hR (Code.within_get hR) fun s => Code.within_runIf hR ?_
  exact within_dtEnableParents hR hd d

end Loops

theorem dtEnableClass_policyOnly {env : Env} {t : DeviceTable} {name : CString} {b : Bool} :
    Code.Within (dtEnableClass env t name b) (fun s _ s' => PolicyOnly s s') :=
  within_dtEnableClass policyOnly_closed fun _ => dtEnableDevice_policyOnly

theorem dtEnableClass_switched {env : Env} {t : DeviceTable} {name : CString} {b : Bool} :
    Code.Within (dtEnableClass env t name b) (fun s _ s' => Switched b s s') :=
  within_dtEnableClass (switched_closed b) fun _ => dtEnableDevice_switched

/-- The loop over the parents paints the whole chain. -/
theorem dtEnableParents_enabled {env : Env} {b : Bool} {d : Device} {s s' : Sys} {w : List Event}
    {u : Unit} (h : Code.Runs (dtEnableParents env b d) s w u s') :
    s'.enabled = paint b d.chain s.enabled := by
  have hpaint : ∀ (e : Device) (xs : List Device) (f : Device → Bool),
      paint b xs (Function.update f e b) = paint b (e :: xs) f := by
    intro e xs f
    funext x
    by_cases hx : x = e
    · subst hx; simp [paint]
    · simp [paint, hx]
  have hnil : ∀ f : Device → Bool, paint b [] f = f := by
    intro f
    funext x
    exact if_neg List.not_mem_nil
  induction d generalizing s w with
  | root i =>
    obtain ⟨w₁, r, s₁, w₂, h₁, h₂, rfl⟩ := Code.runs_bind.mp h
    obtain ⟨-, -, rfl⟩ := Code.runs_pure.mp h₂
    rw [dtEnableDevice_enabled h₁, Device.chain, ← hpaint, hnil]
  | child i p ih =>
    obtain ⟨w₁, r, s₁, w₂, h₁, h₂, rfl⟩ := Code.runs_bind.mp h
    have hen := dtEnableDevice_enabled h₁
    obtain ⟨rfl, -⟩ := dtEnableDevice_runs h₁
    rw [Code.runs_ite] at h₂
    by_cases hp : (Device.child i p).canProtect = true
    · rw [if_pos hp] at h₂
      obtain ⟨-, -, rfl⟩ := Code.runs_pure.mp h₂
      rw [hen, Device.chain, if_pos hp, ← hpaint, hnil]
    · rw [if_neg hp] at h₂
      rw [ih h₂, hen, hpaint, Device.chain, if_neg hp]

/-- The devices that carry a class, in the order in which they are visited. -/
def DeviceTable.carriers (t : DeviceTable) (name : CString) : List Device :=
  t.devices.filter (deviceHasClass · name)

theorem mem_carriers {t : DeviceTable} {name : CString} {d : Device} :
    d ∈ t.carriers name ↔ d ∈ t.devices ∧ name ∈ d.info.classes := by
  simp [DeviceTable.carriers, deviceHasClass]

/-- The flags after `dt_enable_class`. -/
theorem dtEnableClass_enabled {env : Env} {t : DeviceTable} {name : CString} {b : Bool}
    {s s' : Sys} {w : List Event} {u : Unit}
    (h : Code.Runs (dtEnableClass env t name b) s w u s') :
    s'.enabled = sweep Device.chain b (t.carriers name) s.enabled := by
  unfold dtEnableClass at h
  unfold DeviceTable.carriers
  generalize t.devices = ds at h
  induction ds generalizing s w with
  | nil =>
    obtain ⟨-, rfl⟩ := Code.runs_forEach_nil.mp h
    rfl
  | cons d ds ih =>
    obtain ⟨w₁, s₁, w₂, h₁, h₂, rfl⟩ := Code.runs_forEach_cons.mp h
    rw [ih h₂]
    rcases Code.runs_runIf.mp h₁ with ⟨hc, h₁⟩ | ⟨hc, -, rfl⟩
    · rw [List.filter_cons, if_pos hc, sweep]
      rw [Code.runs_get_bind] at h₁
      rcases Code.runs_runIf.mp h₁ with ⟨hne, h₁⟩ | ⟨heq, -, rfl⟩
      · rw [if_neg hne, dtEnableParents_enabled h₁]
      · rw [if_pos (by simpa using heq)]
    · rw [List.filter_cons, if_neg hc]

end SeCloak
