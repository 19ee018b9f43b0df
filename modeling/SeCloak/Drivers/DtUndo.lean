import Mathlib.Data.List.Count
import SeCloak.Drivers.DtProps
import SeCloak.Kernel.Boot

/-!
# Disable, then enable

`dt_enable_device` does not save what it changes: to disable a device takes its lines from the
non-secure world with a priority of their own, and to enable it leaves all of them enabled. The CSU
and the region list are restored by counting, the lines only where they were as `dt_enable_device`
leaves them (`Device.Undoable`).
-/

namespace SeCloak
open Misc

/-- What the round trip is meant to restore. -/
structure Restored (s s' : Sys) : Prop where
  counts : s'.csu.counts = s.csu.counts
  registers : s'.csu.csl = s.csu.csl
  regions : s'.regions.Perm s.regions
  lines : ∀ l, s'.lineEnabled l = s.lineEnabled l ∧ s'.lineSecured l = s.lineSecured l
  priority : ∀ it, s'.gic.ipriorityr it = s.gic.ipriorityr it

/-! ## The CSU -/

/-- A loop over CSLs: counters move in one direction, and fields follow them. -/
theorem setCsls_runs {env : Env} {p : Bool} {cs : List Int} {s s' : Sys} {w : List Event} {u : Unit}
    (h : Code.Runs (Code.forEach (fun c => csuSetCsl env c p) cs) s w u s') :
    s' = { s with csu := s'.csu } ∧
      (∀ n, s'.csu.counts n = s.csu.counts n +
        (if p then 1 else -1) * ((cs.map Int.toNat).count n : Int)) ∧
      (∀ n, s.csu.Shows n → s'.csu.Shows n) ∧
      (∀ n, maxCsl ≤ n → s'.csu.field n = s.csu.field n) ∧ s'.csu.spare = s.csu.spare := by
  induction cs generalizing s w with
  | nil =>
    obtain ⟨-, rfl⟩ := Code.runs_forEach_nil.mp h
    exact ⟨rfl, by simp, fun _ h => h, fun _ _ => rfl, rfl⟩
  | cons c cs ih =>
    obtain ⟨w₁, s₁, w₂, h₁, h₂, rfl⟩ := Code.runs_forEach_cons.mp h
    obtain ⟨hlo, hhi, rfl, -⟩ := csuSetCsl_runs h₁
    obtain ⟨hrest, hcounts, hshows, hfield, hspare⟩ := ih h₂
    refine ⟨hrest, fun n => ?_, fun n hn => hshows n (hn.setCsl _ _), fun n hn => ?_,
      hspare.trans (setCsl_spare _ _ _)⟩
    · rw [hcounts, setCsl_counts, List.map_cons, List.count_cons]
      by_cases hn : n = c.toNat
      · subst hn
        cases p <;> simp <;> omega
      · have hn' : c.toNat ≠ n := fun h => hn h.symm
        simp [hn, hn']
    · have hne : n ≠ c.toNat := by omega
      rw [hfield n hn, setCsl_field, if_neg fun h => hne h.1]

/-! ## The region list -/

/-- The regions that are added for the resources, from the `n`-th allocation on. -/
def addedDenials (env : Env) : Nat → List Resource → List Region
  | _, [] => []
  | n, r :: rs =>
    if env.malloc n then ⟨r.address.c0, r.size.c0, .denyAll⟩ :: addedDenials env (n + 1) rs
    else addedDenials env (n + 1) rs

/-- The regions that are removed again. -/
def denialsOf (rs : List Resource) : List Region :=
  rs.map fun r => ⟨r.address.c0, r.size.c0, .denyAll⟩

theorem addedDenials_sublist (env : Env) (n : Nat) (rs : List Resource) :
    (addedDenials env n rs).Sublist (denialsOf rs) := by
  induction rs generalizing n with
  | nil => exact List.Sublist.refl _
  | cons r rs ih =>
    rw [addedDenials, denialsOf, List.map_cons]
    split
    · exact (ih (n + 1)).cons_cons _
    · exact (ih (n + 1)).cons _

/-- Each region is put in front of the list. -/
theorem addDenials_runs {env : Env} {rs : List Resource} {s s' : Sys} {w : List Event} {u : Unit}
    (h : Code.Runs (Code.forEach (fun r => do
      let _ ← emuAddRegion env r.address.c0 r.size.c0 .denyAll
      pure ()) rs) s w u s') :
    s' = { s with regions := s'.regions, allocs := s'.allocs } ∧
      s'.regions = (addedDenials env s.allocs rs).reverse ++ s.regions := by
  induction rs generalizing s w with
  | nil =>
    obtain ⟨-, rfl⟩ := Code.runs_forEach_nil.mp h
    exact ⟨rfl, rfl⟩
  | cons r rs ih =>
    obtain ⟨w₁, s₁, w₂, h₁, h₂, rfl⟩ := Code.runs_forEach_cons.mp h
    obtain ⟨w₃, ret, s₃, w₄, h₃, h₄, rfl⟩ := Code.runs_bind.mp h₁
    obtain ⟨-, -, rfl⟩ := Code.runs_pure.mp h₄
    obtain ⟨-, rfl⟩ := emuAddRegion_runs h₃
    obtain ⟨hrest, hregions⟩ := ih h₂
    refine ⟨hrest, ?_⟩
    rw [hregions, addedDenials]
    by_cases hok : env.malloc s.allocs = true
    · simp [hok]
    · simp [hok]

theorem removeDenials_runs {rs : List Resource} {s s' : Sys} {w : List Event} {u : Unit}
    (h : Code.Runs (Code.forEach
      (fun r => emuRemoveRegion r.address.c0 r.size.c0 .denyAll) rs) s w u s') :
    s' = { s with regions := s'.regions } ∧ s'.regions = s.regions.diff (denialsOf rs) := by
  induction rs generalizing s w with
  | nil =>
    obtain ⟨-, rfl⟩ := Code.runs_forEach_nil.mp h
    exact ⟨rfl, rfl⟩
  | cons r rs ih =>
    obtain ⟨w₁, s₁, w₂, h₁, h₂, rfl⟩ := Code.runs_forEach_cons.mp h
    obtain ⟨-, rfl⟩ := emuRemoveRegion_runs h₁
    obtain ⟨hrest, hregions⟩ := ih h₂
    refine ⟨hrest, hregions.trans ?_⟩
    rw [denialsOf, denialsOf, List.map_cons, List.diff_cons]

/-- Adding some of the regions and removing all of them gives the list back just when no region
that was there before is removed for one that was not added. -/
theorem diff_added_perm {α : Type} [DecidableEq α] {xs ys zs : List α} (h : ys.Sublist zs) :
    ((ys ++ xs).diff zs).Perm xs ↔ ∀ x ∈ xs, ys.count x = zs.count x := by
  rw [List.perm_iff_count]
  constructor
  · intro hperm x hx
    have hcount := hperm x
    have hle := h.count_le x
    have hpos := List.count_pos_iff.mpr hx
    rw [List.count_diff, List.count_append] at hcount
    omega
  · intro hsame x
    have hle := h.count_le x
    rw [List.count_diff, List.count_append]
    by_cases hx : x ∈ xs
    · have heq := hsame x hx
      omega
    · have hzero := List.count_eq_zero.mpr hx
      omega

/-! ## Priorities -/

theorem ipriorityr_itSecure (g : Gic) (it j : Nat) :
    (g.itSecure it).ipriorityr j =
      if j = it ∧ g.group it = true then 1 else g.ipriorityr j := by
  unfold Gic.itSecure
  by_cases hg : g.group it = false
  · rw [if_pos hg, if_neg (by simp [hg])]
  · have hg' : g.group it = true := by simpa using hg
    have hprio : ∀ h : Gic, h.ipriorityr = g.ipriorityr →
        (h.itSetPrio it 0x1).ipriorityr j = if j = it ∧ g.group it = true then 1 else g.ipriorityr j := by
      intro h hsame
      change Function.update h.ipriorityr it 1 j = _
      rw [hsame, Function.update_apply, hg']
      simp
    rw [if_neg hg]
    cases he : g.enabled it
    · exact hprio (g.writeIgroupr _ _) rfl
    · exact hprio ((g.writeIcenabler _ _).writeIgroupr _ _) rfl

theorem ipriorityr_itUnsecure (g : Gic) (it : Nat) : (g.itUnsecure it).ipriorityr = g.ipriorityr := by
  unfold Gic.itUnsecure
  split
  · rfl
  · cases g.enabled it <;> rfl

theorem ipriorityr_itEnable (g : Gic) (it : Nat) : (g.itEnable it).ipriorityr = g.ipriorityr := by
  unfold Gic.itEnable
  split <;> rfl

theorem onLine_ipriorityr {s : Sys} {l : Line} {g : Gic → Gic} {f : Port → Port}
    (hg : (g s.gic).ipriorityr = s.gic.ipriorityr) :
    (s.onLine l g f).gic.ipriorityr = s.gic.ipriorityr := by
  cases l with
  | gic it => exact hg
  | gpio n pin => rfl

/-- Enabling leaves the priorities as they are. -/
theorem dtEnableIrqs_priority {env : Env} {d : Device} {s s' : Sys} {w : List Event} {u : Unit}
    (h : Code.Runs (dtEnableIrqs env d true) s w u s') :
    s'.gic.ipriorityr = s.gic.ipriorityr := by
  refine Code.within_forEach (R := Code.Keeps fun s : Sys => s.gic.ipriorityr)
    (Code.keeps_closed _) (fun i _ => ?_) h
  intro s w u s' h
  unfold dtEnableIrq at h
  simp only [if_true] at h
  obtain ⟨_, _, s₁, _, h₁, h₂, -⟩ := Code.runs_bind.mp h
  obtain ⟨_, _, s₂, _, h₂, h₃, -⟩ := Code.runs_bind.mp h₂
  obtain ⟨-, -, rfl⟩ := Code.runs_pure.mp h₃
  obtain ⟨-, -, rfl⟩ := irqUnsecure_runs h₁
  obtain ⟨-, -, rfl⟩ := irqEnable_runs h₂
  exact (onLine_ipriorityr (ipriorityr_itEnable _ _)).trans
    (onLine_ipriorityr (ipriorityr_itUnsecure _ _))

/-- Disabling an interrupt of the distributor gives it the priority of the secure world, unless it
was secure already. -/
theorem dtDisableIrq_priority {env : Env} {i : IrqInfo} {s s' : Sys} {w : List Event} {u : Unit}
    (h : Code.Runs (dtEnableIrq env false i) s w u s') (j : Nat) :
    s'.gic.ipriorityr j =
      if .gic j = i.desc.line ∧ s.lineSecured (.gic j) = false then 1 else s.gic.ipriorityr j := by
  unfold dtEnableIrq at h
  simp only [Bool.false_eq_true, if_false] at h
  obtain ⟨_, _, s₁, _, h₁, h₂, -⟩ := Code.runs_bind.mp h
  obtain ⟨_, _, s₂, _, h₂, h₃, -⟩ := Code.runs_bind.mp h₂
  obtain ⟨-, -, rfl⟩ := Code.runs_pure.mp h₃
  obtain ⟨-, -, rfl⟩ := irqDisable_runs h₁
  obtain ⟨-, -, rfl⟩ := irqSecure_runs h₂
  obtain ⟨chip, irq⟩ := i.desc
  cases chip with
  | gpio n => simp [IrqDesc.line, Sys.onLine]
  | gic | gpc =>
    change ((s.gic.itDisable irq).itSecure irq).ipriorityr j = _
    rw [ipriorityr_itSecure]
    change (if j = irq ∧ s.gic.group irq = true then _ else s.gic.ipriorityr j) = _
    by_cases hj : j = irq
    · subst hj
      simp [IrqDesc.line, Sys.lineSecured]
    · simp [IrqDesc.line, hj]

theorem dtDisableIrqs_priority {env : Env} {d : Device} {s s' : Sys} {w : List Event} {u : Unit}
    (h : Code.Runs (dtEnableIrqs env d false) s w u s') (j : Nat) :
    s'.gic.ipriorityr j =
      if .gic j ∈ d.lines ∧ s.lineSecured (.gic j) = false then 1 else s.gic.ipriorityr j := by
  unfold dtEnableIrqs at h
  unfold Device.lines
  generalize d.info.irqs = is at h
  induction is generalizing s w with
  | nil =>
    obtain ⟨-, rfl⟩ := Code.runs_forEach_nil.mp h
    simp
  | cons i is ih =>
    obtain ⟨w₁, s₁, w₂, h₁, h₂, rfl⟩ := Code.runs_forEach_cons.mp h
    obtain ⟨-, -, hline⟩ := dtEnableIrq_runs h₁
    rw [ih h₂, (hline (.gic j)).2, dtDisableIrq_priority h₁, List.map_cons]
    by_cases hj : Line.gic j = i.desc.line
    · simp [hj]
    · simp [hj]

/-! ## The round trip -/

/-- The state is one that the round trip restores: every line of the device is enabled, non-secure
and, in the distributor, of priority 1; and no allocation fails for a region that is in the list
already. -/
structure Device.Undoable (d : Device) (env : Env) (s : Sys) : Prop where
  lines : ∀ l ∈ d.lines, s.lineEnabled l = true ∧ s.lineSecured l = false
  priority : ∀ it, Line.gic it ∈ d.lines → s.gic.ipriorityr it = 1
  regions : d.canProtect = true → ∀ r ∈ s.regions,
    (addedDenials env s.allocs d.info.resources).count r = (denialsOf d.info.resources).count r

/-- Protecting a device and releasing it again, with nothing but the lines changed in between. -/
theorem dtProtect_twice {env : Env} {d : Device} {s s₁ s₂ s' : Sys} {w₁ w₂ : List Event} {u₁ u₂ : Unit}
    (hok : s.csu.Ok) (h₁ : Code.Runs (dtProtect env d false) s w₁ u₁ s₁) (hcsu : s₂.csu = s₁.csu)
    (hregions : s₂.regions = s₁.regions) (h₂ : Code.Runs (dtProtect env d true) s₂ w₂ u₂ s') :
    s'.csu.counts = s.csu.counts ∧ s'.csu.csl = s.csu.csl ∧
      s'.regions.Perm ((addedDenials env s.allocs d.info.resources ++ s.regions).diff
        (denialsOf d.info.resources)) := by
  obtain ⟨_, _, t₁, _, hadd, htake, -⟩ := Code.runs_bind.mp h₁
  obtain ⟨_, _, t₂, _, hgive, hremove, -⟩ := Code.runs_bind.mp h₂
  obtain ⟨hrest₁, hadded⟩ := addDenials_runs hadd
  obtain ⟨hrest₂, hcounts₂, hshows₂, hfield₂, hspare₂⟩ := setCsls_runs htake
  obtain ⟨hrest₃, hcounts₃, hshows₃, hfield₃, hspare₃⟩ := setCsls_runs hgive
  obtain ⟨hrest₄, hdiff⟩ := removeDenials_runs hremove
  have hcsu₁ : t₁.csu = s.csu := by rw [hrest₁]
  have hcsu₄ : s'.csu = t₂.csu := by rw [hrest₄]
  rw [hcsu₁] at hcounts₂ hshows₂ hfield₂ hspare₂
  rw [hcsu] at hcounts₃ hshows₃ hfield₃ hspare₃
  rw [hcsu₄]
  have hcounts : t₂.csu.counts = s.csu.counts := by
    funext n
    rw [hcounts₃, hcounts₂]
    simp
  refine ⟨hcounts, csl_ext (fun n => ?_) (hspare₃.trans hspare₂), ?_⟩
  · rcases Nat.lt_or_ge n maxCsl with hn | hn
    · have hshows : s.csu.Shows n := hok.field n hn
      rw [hshows₃ n (hshows₂ n hshows), hcounts, hshows]
    · rw [hfield₃ n hn, hfield₂ n hn]
  · have hregions₂ : t₂.regions = t₁.regions := by rw [hrest₃, hregions, hrest₂]
    rw [hdiff, hregions₂, hadded]
    exact ((List.reverse_perm _).append_right _).diff_right _

/-- To disable an enabled device and enable it again restores the state just when its lines were
open, with the priority that they are given, and no region is removed for another one. -/
theorem disableEnable_iff {env : Env} {d : Device} {s s₁ s' : Sys} {w₁ w₂ : List Event}
    {r₁ r₂ : Bool} (hen : s.enabled d = true) (hok : s.csu.Ok)
    (h₁ : Code.Runs (dtEnableDevice env d false) s w₁ r₁ s₁)
    (h₂ : Code.Runs (dtEnableDevice env d true) s₁ w₂ r₂ s') :
    Restored s s' ↔ d.Undoable env s := by
  have hflag : s₁.enabled d = false := by
    rw [dtEnableDevice_enabled h₁, Function.update_self]
  obtain ⟨-, ⟨hsame, -⟩ | ⟨-, a₁, a₂, hirq₁, hprot₁, hs₁⟩⟩ := dtEnableDevice_runs h₁
  · rw [hen] at hsame
    cases hsame
  obtain ⟨-, ⟨hsame, -⟩ | ⟨-, b₁, b₂, hirq₂, hprot₂, hs'⟩⟩ := dtEnableDevice_runs h₂
  · rw [hflag] at hsame
    cases hsame
  obtain ⟨-, -, hgic₁, hgpio₁⟩ := dtEnableDevice_before_flag hirq₁ hprot₁
  obtain ⟨-, -, hgic₂, hgpio₂⟩ := dtEnableDevice_before_flag hirq₂ hprot₂
  obtain ⟨-, honly₁, hline₁⟩ := dtEnableIrqs_runs hirq₁
  obtain ⟨-, honly₂, hline₂⟩ := dtEnableIrqs_runs hirq₂
  -- the lines and the priorities after the round trip
  have hmid : s₁.line = a₁.line := by
    rw [hs₁]
    exact line_congr hgic₁ hgpio₁
  have hend : s'.line = b₁.line := by
    rw [hs']
    exact line_congr hgic₂ hgpio₂
  have hlines : ∀ l, s'.line l = if l ∈ d.lines then (true, false) else s.line l := by
    intro l
    have hm := congrFun hmid l
    rw [hend]
    unfold Sys.line at hm ⊢
    rw [(hline₂ l).1, (hline₂ l).2, (Prod.mk.inj hm).1, (Prod.mk.inj hm).2, (hline₁ l).1,
      (hline₁ l).2]
    by_cases hl : l ∈ d.lines <;> simp [hl]
  have hprio : ∀ it, s'.gic.ipriorityr it =
      if .gic it ∈ d.lines ∧ s.lineSecured (.gic it) = false then 1 else s.gic.ipriorityr it := by
    intro it
    have hprio₂ := congrFun (dtEnableIrqs_priority hirq₂) it
    have hgic' : s'.gic = b₁.gic := by
      rw [hs']
      exact hgic₂
    have hgic'' : s₁.gic = a₁.gic := by
      rw [hs₁]
      exact hgic₁
    rw [hgic', hprio₂, hgic'', dtDisableIrqs_priority hirq₁]
  -- the CSU and the regions
  have hprot : s'.csu.counts = s.csu.counts ∧ s'.csu.csl = s.csu.csl ∧
      (s'.regions.Perm s.regions ↔ (d.canProtect = true → ∀ r ∈ s.regions,
        (addedDenials env s.allocs d.info.resources).count r =
          (denialsOf d.info.resources).count r)) := by
    have ha : a₁.csu = s.csu ∧ a₁.regions = s.regions ∧ a₁.allocs = s.allocs := by
      rw [honly₁.rest]
      exact ⟨rfl, rfl, rfl⟩
    have hb : b₁.csu = a₂.csu ∧ b₁.regions = a₂.regions := by
      rw [honly₂.rest, hs₁]
      exact ⟨rfl, rfl⟩
    have hcsu' : s'.csu = b₂.csu := by rw [hs']
    have hregions' : s'.regions = b₂.regions := by rw [hs']
    rw [hcsu', hregions']
    rcases hprot₁ with ⟨hcan, hp₁⟩ | ⟨hcan, -, rfl⟩
    · rcases hprot₂ with ⟨-, hp₂⟩ | ⟨hcan', -⟩
      · obtain ⟨hcounts, hcsl, hperm⟩ := dtProtect_twice (by rw [ha.1]; exact hok) hp₁ hb.1 hb.2 hp₂
        rw [ha.1] at hcounts hcsl
        rw [ha.2.1, ha.2.2] at hperm
        refine ⟨hcounts, hcsl, ?_⟩
        rw [← diff_added_perm (addedDenials_sublist env s.allocs d.info.resources)]
        exact ⟨fun h _ => hperm.symm.trans h, fun h => hperm.trans (h hcan)⟩
      · rw [hcan] at hcan'
        cases hcan'
    · rcases hprot₂ with ⟨hcan', -⟩ | ⟨-, -, rfl⟩
      · rw [hcan] at hcan'
        cases hcan'
      · rw [hb.1, hb.2, ha.1, ha.2.1]
        refine ⟨rfl, rfl, fun _ h => ?_, fun _ => List.Perm.refl _⟩
        rw [hcan] at h
        cases h
  constructor
  · intro h
    have hopen : ∀ l ∈ d.lines, s.lineEnabled l = true ∧ s.lineSecured l = false := by
      intro l hl
      have hll := hlines l
      rw [if_pos hl] at hll
      obtain ⟨hlen, hlsec⟩ := Prod.mk.inj hll
      exact ⟨(h.lines l).1 ▸ hlen, (h.lines l).2 ▸ hlsec⟩
    refine ⟨hopen, fun it hit => ?_, hprot.2.2.mp h.regions⟩
    rw [← h.priority it, hprio, if_pos ⟨hit, (hopen _ hit).2⟩]
  · intro h
    refine ⟨hprot.1, hprot.2.1, hprot.2.2.mpr h.regions, fun l => ?_, fun it => ?_⟩
    · have hll := hlines l
      by_cases hl : l ∈ d.lines
      · rw [if_pos hl] at hll
        obtain ⟨hlen, hlsec⟩ := Prod.mk.inj hll
        rw [(h.lines l hl).1, (h.lines l hl).2]
        exact ⟨hlen, hlsec⟩
      · rw [if_neg hl] at hll
        exact Prod.mk.inj hll
    · rw [hprio]
      split
      · rename_i hit
        exact (h.priority it hit.1).symm
      · rfl

namespace Board

/-- The board whose non-secure world has enabled the line of the radio with a priority. -/
def wlanLine (prio : Byte) : Sys :=
  { booted imx6Release 0 with gic :=
    ((booted imx6Release 0).gic.itEnable 54).itSetPrio 54 prio }

/-- The radio is disabled and enabled again. -/
def wlanOff (prio : Byte) : Sys := (dtEnableDevice imx6Release wlan false).after (wlanLine prio)
def wlanAgain (prio : Byte) : Sys := (dtEnableDevice imx6Release wlan true).after (wlanOff prio)

end Board

theorem disableEnable_iff_wlan :
    Restored (Board.wlanLine 1) (Board.wlanAgain 1) ↔
      Board.wlan.Undoable imx6Release (Board.wlanLine 1) := by
  obtain ⟨_, h₁⟩ := Code.runs_after (m := dtEnableDevice imx6Release Board.wlan false)
    (s := Board.wlanLine 1) (by decide +kernel)
  obtain ⟨_, h₂⟩ := Code.runs_after (m := dtEnableDevice imx6Release Board.wlan true)
    (s := Board.wlanOff 1) (by decide +kernel)
  have hok : (Board.wlanLine 1).csu.Ok := ⟨by decide +kernel, by decide +kernel⟩
  exact disableEnable_iff (by decide +kernel) hok h₁ h₂

/-- A line of another priority comes back with the priority of the secure world. -/
theorem disableEnable_priority :
    (∃ w r, Code.Runs (dtEnableDevice imx6Release Board.wlan false) (Board.wlanLine 0xA0) w r
        (Board.wlanOff 0xA0)) ∧
      (∃ w r, Code.Runs (dtEnableDevice imx6Release Board.wlan true) (Board.wlanOff 0xA0) w r
        (Board.wlanAgain 0xA0)) ∧
      (Board.wlanLine 0xA0).gic.ipriorityr 54 = 0xA0 ∧
      (Board.wlanAgain 0xA0).gic.ipriorityr 54 = 1 ∧
      ¬ Restored (Board.wlanLine 0xA0) (Board.wlanAgain 0xA0) := by
  obtain ⟨r₁, h₁⟩ := Code.runs_after (m := dtEnableDevice imx6Release Board.wlan false)
    (s := Board.wlanLine 0xA0) (by decide +kernel)
  obtain ⟨r₂, h₂⟩ := Code.runs_after (m := dtEnableDevice imx6Release Board.wlan true)
    (s := Board.wlanOff 0xA0) (by decide +kernel)
  have hbefore : (Board.wlanLine 0xA0).gic.ipriorityr 54 = 0xA0 := by decide +kernel
  have hafter : (Board.wlanAgain 0xA0).gic.ipriorityr 54 = 1 := by decide +kernel
  refine ⟨⟨_, r₁, h₁⟩, ⟨_, r₂, h₂⟩, hbefore, hafter, fun h => ?_⟩
  have hprio := h.priority 54
  rw [hbefore, hafter] at hprio
  cases hprio

end SeCloak
