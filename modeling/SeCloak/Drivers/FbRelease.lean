import SeCloak.Drivers.FbBlit
import SeCloak.Misc.Follows

/-!
# Acquire and release

A run in which the framebuffer is held is compared with the run of the same policy without it
(`DisplayHeld`): the CSL of the display is counted once more and the list has one more region, and
every operation of `dt_enable_class` keeps this difference. `fb_release` takes it away again.
-/

namespace SeCloak
open Misc

/-! ## The CSU -/

/-- The display is counted once more in `c` than in `d`, and nothing else differs. -/
structure CsuBeside (c d : Csu) : Prop where
  counts : ∀ n, c.counts n = if n = fbCsl.toNat then d.counts n + 1 else d.counts n
  field : ∀ n, n ≠ fbCsl.toNat → c.field n = d.field n
  shows : c.Shows fbCsl.toNat
  shows' : d.Shows fbCsl.toNat
  spare : c.spare = d.spare
  sa : c.sa = d.sa

theorem CsuBeside.acquire {d : Csu} (h : d.Shows fbCsl.toNat) :
    CsuBeside (d.setCsl fbCsl.toNat true) d where
  counts n := by
    rw [setCsl_counts]
    by_cases hn : n = fbCsl.toNat
    · subst hn
      rfl
    · rw [if_neg hn, if_neg hn]
  field n hn := by rw [setCsl_field, if_neg fun h => hn h.1]
  shows := h.setCsl _ _
  shows' := h
  spare := setCsl_spare _ _ _
  sa := rfl

theorem CsuBeside.setCsl {c d : Csu} (h : CsuBeside c d) (m : Nat) (p : Bool) :
    CsuBeside (c.setCsl m p) (d.setCsl m p) where
  counts n := by
    rw [setCsl_counts, setCsl_counts, h.counts, h.counts]
    by_cases hnm : n = m
    · subst hnm
      by_cases hn : n = fbCsl.toNat <;> cases p <;> simp [hn]
    · simp [hnm]
  field n hn := by
    rw [setCsl_field, setCsl_field, h.field n hn]
    by_cases hnm : n = m
    · subst hnm
      rw [h.counts, if_neg hn]
    · simp [hnm]
  shows := h.shows.setCsl _ _
  shows' := h.shows'.setCsl _ _
  spare := by rw [setCsl_spare, setCsl_spare, h.spare]
  sa := h.sa

/-- Giving the display back makes both the same. -/
theorem CsuBeside.release {c d : Csu} (h : CsuBeside c d) : c.setCsl fbCsl.toNat false = d := by
  have hcounts : (c.setCsl fbCsl.toNat false).counts = d.counts := by
    funext n
    rw [setCsl_counts, h.counts, h.counts]
    by_cases hn : n = fbCsl.toNat <;> simp [hn]
  have hcsl : (c.setCsl fbCsl.toNat false).csl = d.csl := by
    refine csl_ext (fun n => ?_) ((setCsl_spare _ _ _).trans h.spare)
    by_cases hn : n = fbCsl.toNat
    · subst hn
      have hshows := h.shows.setCsl fbCsl.toNat false
      rw [hshows, h.shows', hcounts]
    · rw [setCsl_field, if_neg fun hnm => hn hnm.1, h.field n hn]
  have hsa : (c.setCsl fbCsl.toNat false).sa = d.sa := h.sa
  generalize c.setCsl fbCsl.toNat false = c' at hcounts hcsl hsa
  cases c'
  cases d
  simp_all

/-! ## The two states -/

/-- `s` is `t` with the framebuffer held: `fb` is what `fb_acquire` left and drawing does not
touch, `r` the region that it added. -/
structure DisplayHeld (fb : Fb) (r : Region) (s t : Sys) : Prop where
  rest : t = { s with csu := t.csu, regions := t.regions, fb := t.fb, allocs := t.allocs }
  drawn : s.fb = { fb with mem := s.fb.mem }
  csu : CsuBeside s.csu t.csu
  regions : s.regions.Perm (r :: t.regions)

/-- The faults of the run without the framebuffer: its counter may have nothing to give back. -/
def CountFault (env : Env) (e : Fault) : Prop := env.asserts = true ∧ e = .assertion

section Follow

variable {env : Env} {fb : Fb} {r : Region} {s t : Sys}

/-- An update of the rest of the state keeps the two states beside each other. -/
theorem DisplayHeld.update (h : DisplayHeld fb r s t) {f : Sys → Sys}
    (hf : ∀ s c rs b n, f { s with csu := c, regions := rs, fb := b, allocs := n } =
      { f s with csu := c, regions := rs, fb := b, allocs := n })
    (hcsu : ∀ s, (f s).csu = s.csu) (hregions : ∀ s, (f s).regions = s.regions)
    (hfb : ∀ s, (f s).fb = s.fb) (hallocs : ∀ s, (f s).allocs = s.allocs) :
    DisplayHeld fb r (f s) (f t) where
  rest := by
    rw [hcsu, hregions, hfb, hallocs]
    conv_lhs => rw [h.rest]
    exact hf s t.csu t.regions t.fb t.allocs
  drawn := by
    rw [hfb]
    exact h.drawn
  csu := by
    rw [hcsu, hcsu]
    exact h.csu
  regions := by
    rw [hregions, hregions]
    exact h.regions

theorem DisplayHeld.enabled (h : DisplayHeld fb r s t) : t.enabled = s.enabled := by rw [h.rest]
theorem DisplayHeld.gic (h : DisplayHeld fb r s t) : t.gic = s.gic := by rw [h.rest]
theorem DisplayHeld.chip (h : DisplayHeld fb r s t) : t.chip = s.chip := by rw [h.rest]
theorem DisplayHeld.gpio (h : DisplayHeld fb r s t) : t.gpio = s.gpio := by rw [h.rest]

/-- An assert that fails only without the framebuffer is the exception. -/
theorem follows_kassert {R : Sys → Sys → Prop} {p q : Prop} [Decidable p] [Decidable q]
    (hqp : q → p) : Code.Follows R (CountFault env) (kassert env p) (kassert env q) where
  forth s t w u s' hst h := by
    obtain ⟨rfl, rfl, -⟩ := runs_kassert.mp h
    by_cases hq : env.asserts = true ∧ ¬ q
    · refine Or.inr ⟨[], .assertion, ?_, hq.1, rfl⟩
      unfold kassert
      rw [if_pos hq, Code.stops_throw]
      exact ⟨rfl, rfl⟩
    · refine Or.inl ⟨[], t, runs_kassert.mpr ⟨rfl, rfl, fun ha => ?_⟩, hst⟩
      by_contra hnq
      exact hq ⟨ha, hnq⟩
  back s t w u t' hst h := by
    obtain ⟨rfl, rfl, hq⟩ := runs_kassert.mp h
    exact ⟨[], s, runs_kassert.mpr ⟨rfl, rfl, fun ha => hqp (hq ha)⟩, hst⟩

theorem follows_modifyGic (f : Gic → Gic) :
    Code.Follows (DisplayHeld fb r) (CountFault env) (modifyGic f) (modifyGic f) :=
  Code.follows_modify fun _ _ hst => hst.update (f := fun s => { s with gic := f s.gic })
    (fun _ _ _ _ _ => rfl) (fun _ => rfl) (fun _ => rfl) (fun _ => rfl) (fun _ => rfl)

theorem follows_modifyPort (n : Nat) (f : Port → Port) :
    Code.Follows (DisplayHeld fb r) (CountFault env) (modifyPort n f) (modifyPort n f) := by
  unfold modifyPort
  refine Code.follows_get_bind fun s t hst => ?_
  rw [hst.gpio]
  cases s.gpio.port n with
  | none => exact Code.follows_throw _ _
  | some p =>
    exact Code.follows_modify fun _ _ hst => hst.update (f := fun s => { s with gpio :=
      { s.gpio with port := Function.update s.gpio.port n (some (f p)) } })
      (fun _ _ _ _ _ => rfl) (fun _ => rfl) (fun _ => rfl) (fun _ => rfl) (fun _ => rfl)

theorem follows_modifyPin (n irq : Nat) (f : Port → Port) :
    Code.Follows (DisplayHeld fb r) (CountFault env) (modifyPin n irq f) (modifyPin n irq f) := by
  refine Code.follows_bind (Code.follows_require Iff.rfl _) fun _ => ?_
  exact Code.follows_bind (follows_modifyPort n f) fun _ => Code.follows_pure 0

theorem follows_irqCheckValid (d : IrqDesc) :
    Code.Follows (DisplayHeld fb r) (CountFault env) (irqCheckValid d) (irqCheckValid d) := by
  refine Code.follows_get_bind fun s t hst => Code.follows_require ?_ _
  rw [hst.chip]

theorem follows_gicAssertGroup0 (it : Nat) :
    Code.Follows (DisplayHeld fb r) (CountFault env) (gicAssertGroup0 env it) (gicAssertGroup0 env it) := by
  refine Code.follows_get_bind fun s t hst => follows_kassert fun h => ?_
  rwa [hst.gic] at h

theorem follows_irqDisable (d : IrqDesc) :
    Code.Follows (DisplayHeld fb r) (CountFault env) (irqDisable d) (irqDisable d) := by
  refine Code.follows_bind (follows_irqCheckValid d) fun _ => ?_
  obtain ⟨chip, irq⟩ := d
  cases chip with
  | gpio n => exact follows_modifyPin _ _ _
  | gic | gpc => exact Code.follows_bind (follows_modifyGic _) fun _ => Code.follows_pure 0

theorem follows_irqSecure (d : IrqDesc) :
    Code.Follows (DisplayHeld fb r) (CountFault env) (irqSecure env d) (irqSecure env d) := by
  refine Code.follows_bind (follows_irqCheckValid d) fun _ => ?_
  obtain ⟨chip, irq⟩ := d
  cases chip with
  | gpio n => exact follows_modifyPin _ _ _
  | gic | gpc =>
    refine Code.follows_bind ?_ fun _ => Code.follows_pure 0
    rw [gicItSecure_eq]
    exact follows_modifyGic _

theorem follows_irqUnsecure (d : IrqDesc) :
    Code.Follows (DisplayHeld fb r) (CountFault env) (irqUnsecure d) (irqUnsecure d) := by
  refine Code.follows_bind (follows_irqCheckValid d) fun _ => ?_
  obtain ⟨chip, irq⟩ := d
  cases chip with
  | gpio n => exact follows_modifyPin _ _ _
  | gic | gpc => exact Code.follows_bind (follows_modifyGic _) fun _ => Code.follows_pure 0

theorem follows_irqEnable (d : IrqDesc) :
    Code.Follows (DisplayHeld fb r) (CountFault env) (irqEnable env d) (irqEnable env d) := by
  refine Code.follows_bind (follows_irqCheckValid d) fun _ => ?_
  obtain ⟨chip, irq⟩ := d
  cases chip with
  | gpio n => exact follows_modifyPin _ _ _
  | gic | gpc =>
    refine Code.follows_bind (follows_gicAssertGroup0 irq) fun _ => ?_
    exact Code.follows_bind (follows_modifyGic _) fun _ => Code.follows_pure 0

theorem follows_csuSetCsl (c : Int) (p : Bool) :
    Code.Follows (DisplayHeld fb r) (CountFault env) (csuSetCsl env c p) (csuSetCsl env c p) := by
  refine Code.follows_bind (follows_kassert id) fun _ => ?_
  refine Code.follows_bind (Code.follows_require Iff.rfl _) fun _ => ?_
  refine Code.follows_get_bind fun s t hst => ?_
  refine Code.follows_bind (follows_kassert fun hcount => ?_) fun _ => ?_
  · -- the display is counted once more
    have hle : t.csu.counts c.toNat ≤ s.csu.counts c.toNat := by
      rw [hst.csu.counts]
      split <;> omega
    exact hcount.imp_right fun h => by omega
  refine Code.follows_bind (Code.follows_modify fun s t hst => ?_) fun _ => Code.follows_emit _ _
  refine ⟨?_, hst.drawn, hst.csu.setCsl _ _, hst.regions⟩
  rw [hst.rest]

theorem follows_malloc (hmalloc : ∀ n, env.malloc n = true) :
    Code.Follows (DisplayHeld fb r) (CountFault env) (malloc env) (malloc env) := by
  refine Code.follows_get_bind fun s t _ => ?_
  rw [hmalloc, hmalloc]
  refine Code.follows_bind (Code.follows_modify fun s t hst => ?_) fun _ => Code.follows_pure true
  refine ⟨?_, hst.drawn, hst.csu, hst.regions⟩
  rw [hst.rest]

theorem follows_emuAddRegion (hmalloc : ∀ n, env.malloc n = true) (base size : Word)
    (check : EmuCheck) : Code.Follows (DisplayHeld fb r) (CountFault env)
      (emuAddRegion env base size check) (emuAddRegion env base size check) := by
  refine Code.follows_bind (follows_malloc hmalloc) fun ok => ?_
  refine Code.follows_bind (Code.follows_runIf Iff.rfl
    (Code.follows_modify fun s t hst => ⟨?_, hst.drawn, hst.csu, ?_⟩)) fun _ => ?_
  · rw [hst.rest]
  · exact (hst.regions.cons _).trans (List.Perm.swap _ _ _)
  · exact Code.follows_bind (Code.follows_emit _ _) fun _ => Code.follows_pure _

/-- The policy removes regions of another kind. -/
theorem follows_emuRemoveRegion {base size : Word} {check : EmuCheck}
    (hr : r ≠ ⟨base, size, check⟩) : Code.Follows (DisplayHeld fb r) (CountFault env)
      (emuRemoveRegion base size check) (emuRemoveRegion base size check) := by
  refine Code.follows_bind (Code.follows_modify fun s t hst => ?_) fun _ => Code.follows_emit _ _
  refine ⟨?_, hst.drawn, hst.csu, ?_⟩
  · rw [hst.rest]
  · have herase := hst.regions.erase (⟨base, size, check⟩ : Region)
    rwa [List.erase_cons_tail (by simpa using hr)] at herase

/-! ## Policy and drawing -/

theorem follows_dtEnableIrq (b : Bool) (i : IrqInfo) :
    Code.Follows (DisplayHeld fb r) (CountFault env) (dtEnableIrq env b i) (dtEnableIrq env b i) := by
  cases b with
  | true =>
    refine Code.follows_bind (follows_irqUnsecure i.desc) fun _ => ?_
    exact Code.follows_bind (follows_irqEnable i.desc) fun _ => Code.follows_pure ()
  | false =>
    refine Code.follows_bind (follows_irqDisable i.desc) fun _ => ?_
    exact Code.follows_bind (follows_irqSecure i.desc) fun _ => Code.follows_pure ()

theorem follows_dtProtect (hmalloc : ∀ n, env.malloc n = true) (hr : r.check ≠ .denyAll)
    (d : Device) (b : Bool) :
    Code.Follows (DisplayHeld fb r) (CountFault env) (dtProtect env d b) (dtProtect env d b) := by
  have hne : ∀ base size, r ≠ ⟨base, size, .denyAll⟩ := by
    rintro base size rfl
    exact hr rfl
  cases b with
  | true =>
    refine Code.follows_bind (Code.follows_forEach fun c _ => follows_csuSetCsl c false) fun _ => ?_
    exact Code.follows_forEach fun res _ => follows_emuRemoveRegion (hne _ _)
  | false =>
    refine Code.follows_bind (Code.follows_forEach fun res _ => ?_) fun _ => ?_
    · exact Code.follows_bind (follows_emuAddRegion hmalloc _ _ _) fun _ => Code.follows_pure ()
    · exact Code.follows_forEach fun c _ => follows_csuSetCsl c true

theorem follows_dtEnableDevice (hmalloc : ∀ n, env.malloc n = true) (hr : r.check ≠ .denyAll)
    (d : Device) (b : Bool) : Code.Follows (DisplayHeld fb r) (CountFault env)
      (dtEnableDevice env d b) (dtEnableDevice env d b) := by
  refine Code.follows_get_bind fun s t hst => ?_
  refine Code.follows_bind (Code.follows_runIf (by rw [hst.enabled]) ?_) fun _ =>
    Code.follows_pure _
  refine Code.follows_bind (Code.follows_forEach fun i _ => follows_dtEnableIrq b i) fun _ => ?_
  refine Code.follows_bind (Code.follows_runIf Iff.rfl (follows_dtProtect hmalloc hr d b))
    fun _ => ?_
  exact Code.follows_modify fun _ _ hst => hst.update
    (f := fun s => { s with enabled := Function.update s.enabled d b })
    (fun _ _ _ _ _ => rfl) (fun _ => rfl) (fun _ => rfl) (fun _ => rfl) (fun _ => rfl)

theorem follows_dtEnableParents (hmalloc : ∀ n, env.malloc n = true) (hr : r.check ≠ .denyAll)
    (b : Bool) (d : Device) : Code.Follows (DisplayHeld fb r) (CountFault env)
      (dtEnableParents env b d) (dtEnableParents env b d) := by
  induction d with
  | root i =>
    exact Code.follows_bind (follows_dtEnableDevice hmalloc hr _ b) fun _ => Code.follows_pure ()
  | child i p ih =>
    refine Code.follows_bind (follows_dtEnableDevice hmalloc hr _ b) fun prot => ?_
    cases prot with
    | true => exact Code.follows_pure ()
    | false => exact ih

theorem follows_dtEnableClass (hmalloc : ∀ n, env.malloc n = true) (hr : r.check ≠ .denyAll)
    (t : DeviceTable) (name : CString) (b : Bool) : Code.Follows (DisplayHeld fb r) (CountFault env)
      (dtEnableClass env t name b) (dtEnableClass env t name b) := by
  refine Code.follows_forEach fun d _ => Code.follows_runIf Iff.rfl ?_
  refine Code.follows_get_bind fun s t hst => Code.follows_runIf (by rw [hst.enabled]) ?_
  exact follows_dtEnableParents hmalloc hr b d

theorem follows_draw {m : Kernel Unit} (htotal : Code.Total m) (hm : Code.Within m PaintOnly) :
    Code.Follows (DisplayHeld fb r) (CountFault env) m (pure ()) := by
  refine Code.follows_skip htotal fun s t w u s' hst h => ?_
  have hdraw := (hm h).rest
  rw [hdraw]
  refine ⟨?_, ?_, hst.csu, hst.regions⟩
  · rw [hst.rest]
  · rw [hst.drawn]

end Follow

/-! ## Between acquire and release -/

/-- What happens while the framebuffer is held: drawing and changes of the policy. -/
inductive Between where
  | clear (r g b : Byte)
  | blit (x y : Word) (image : Image)
  | blitAll (blits : List Blit)
  | enableClass (name : CString) (enable : Bool)

def Between.run (env : Env) (t : DeviceTable) (info : FbInfo) : Between → Kernel Unit
  | .clear r g b => fbClear info r g b
  | .blit x y image => fbBlitImage env info x y image
  | .blitAll blits => fbBlitAll env info blits
  | .enableClass name enable => dtEnableClass env t name enable

/-- The same without a framebuffer: only the policy changes. -/
def Between.policy (env : Env) (t : DeviceTable) : Between → Kernel Unit
  | .enableClass name enable => dtEnableClass env t name enable
  | _ => pure ()

/-- The images that are drawn. -/
def Between.images : Between → List Image
  | .blit _ _ image => [image]
  | .blitAll blits => blits.map (·.image)
  | _ => []

/-- An image that exists has fewer than 2^31 bytes. -/
def Image.Exists (image : Image) : Prop := 3 * (image.width.toNat * image.height.toNat) < 2 ^ 31

theorem fbBlitImage_returns {env : Env} {info : FbInfo} (hsize : info.Sized) (hfit : info.Fits)
    {x y : Word} {image : Image} (himg : image.Exists) :
    Code.Total (fbBlitImage env info x y image) :=
  Code.total_bind (fun _ _ _ => Code.stops_emit) fun _ => fbBlit_returns hsize hfit himg

theorem follows_between {env : Env} (fb : Fb) {r : Region} (hmalloc : ∀ n, env.malloc n = true)
    (hr : r.check ≠ .denyAll) (t : DeviceTable) {info : FbInfo} (hsize : info.Sized)
    (hfit : info.Fits) {steps : List Between}
    (himages : ∀ x ∈ steps, ∀ image ∈ x.images, image.Exists) :
    Code.Follows (DisplayHeld fb r) (CountFault env) (Code.forEach (·.run env t info) steps)
      (Code.forEach (·.policy env t) steps) := by
  refine Code.follows_forEach fun x hx => ?_
  have himg := himages x hx
  cases x with
  | clear r g b => exact follows_draw (fbClear_total hsize hfit) (fbClear_paintOnly _ _ _ _)
  | blit x y image =>
    have hblit := himg image List.mem_cons_self
    exact follows_draw (fbBlitImage_returns hsize hfit hblit) (fbBlitImage_paintOnly _ _ _ _ _)
  | blitAll blits =>
    refine follows_draw (Code.total_forEach fun b hb => ?_) (fbBlitAll_paintOnly _ _ _)
    exact fbBlitImage_returns hsize hfit (himg b.image (List.mem_map_of_mem hb))
  | enableClass name enable => exact follows_dtEnableClass hmalloc hr t name enable

/-- Meanwhile only the bytes of the framebuffer change in the display. -/
theorem between_fb {env : Env} {t : DeviceTable} {info : FbInfo} {steps : List Between} :
    Code.Within (Code.forEach (·.run env t info) steps)
      (fun s _ s' => s'.fb = { s.fb with mem := s'.fb.mem }) := by
  have hclosed : Code.Closed
      (fun s _ s' => s'.fb = { s.fb with mem := s'.fb.mem } : Sys → List Event → Sys → Prop) :=
    ⟨fun _ => rfl, fun h h' => by rw [h', h]⟩
  have hpaint : ∀ {m : Kernel Unit}, Code.Within m PaintOnly →
      Code.Within m (fun s _ s' => s'.fb = { s.fb with mem := s'.fb.mem }) := by
    intro m hm s w u s' h
    rw [(hm h).rest]
  refine Code.within_forEach hclosed fun x _ => ?_
  cases x with
  | clear r g b => exact hpaint (fbClear_paintOnly _ _ _ _)
  | blit x y image => exact hpaint (fbBlitImage_paintOnly _ _ _ _ _)
  | blitAll blits => exact hpaint (fbBlitAll_paintOnly _ _ _)
  | enableClass name enable =>
    intro s w u s' h
    rw [(dtEnableClass_policyOnly h).rest]

theorem fbAcquire_beside {env : Env} {r g b : Byte} {s s' : Sys} {w : List Event}
    {res : Option FbInfo} (hmalloc : ∀ n, env.malloc n = true) (hcsl : s.csu.Shows fbCsl.toNat)
    (h : Code.Runs (fbAcquire env r g b) s w res s') :
    DisplayHeld s'.fb ⟨s.fb.basePaddr, 0x400000, .fb⟩ s' s := by
  obtain ⟨-, -, -, hregions, hcsu⟩ := fbAcquire_stages h
  rw [hmalloc] at hregions
  refine ⟨?_, rfl, ?_, ?_⟩
  · rw [(fbAcquire_fbOnly h).rest]
  · rw [hcsu]
    exact CsuBeside.acquire hcsl
  · rw [hregions]
    rfl

/-! ## The count of the display -/

/-- With asserts the count of the display is not negative. -/
def DisplayCounted (env : Env) (s : Sys) : Prop :=
  env.asserts = true → 0 ≤ s.csu.counts fbCsl.toNat

theorem csuSetCsl_counted {env : Env} {c : Int} {p : Bool} :
    Code.Within (csuSetCsl env c p) (Code.Preserves (DisplayCounted env)) := by
  intro s w u s' h hs hasserts
  have hcount := hs hasserts
  simp only [csuSetCsl, runs_kassert_bind, Code.runs_require_bind, Code.runs_get_bind,
    Code.runs_modify_bind, runs_logProt] at h
  obtain ⟨-, -, hassert, -, rfl⟩ := h
  change 0 ≤ (s.csu.setCsl c.toNat p).counts fbCsl.toNat
  rw [setCsl_counts]
  by_cases hn : fbCsl.toNat = c.toNat
  · rw [if_pos hn]
    rw [hn] at hcount
    rcases hassert hasserts with rfl | hpos
    · simp only [if_true]
      omega
    · split <;> omega
  · rw [if_neg hn]
    exact hcount

theorem dtProtect_counted {env : Env} {d : Device} {b : Bool} :
    Code.Within (dtProtect env d b) (Code.Preserves (DisplayCounted env)) := by
  have hclosed := @Code.preserves_closed Sys Event (DisplayCounted env)
  have hadd : ∀ base size check, Code.Within (emuAddRegion env base size check)
      (Code.Preserves (DisplayCounted env)) := by
    intro base size check s w ret s' h hs
    rw [(emuAddRegion_runs h).2]
    exact hs
  have hremove : ∀ base size check, Code.Within (emuRemoveRegion base size check)
      (Code.Preserves (DisplayCounted env)) := by
    intro base size check s w ret s' h hs
    rw [(emuRemoveRegion_runs h).2]
    exact hs
  refine Code.within_ite ?_ ?_
  · refine Code.within_bind hclosed (Code.within_forEach hclosed fun _ _ => csuSetCsl_counted)
      fun _ => ?_
    exact Code.within_forEach hclosed fun _ _ => hremove _ _ _
  · refine Code.within_bind hclosed (Code.within_forEach hclosed fun _ _ => ?_) fun _ => ?_
    · exact Code.within_bind hclosed (hadd _ _ _) fun _ => Code.within_pure hclosed ()
    · exact Code.within_forEach hclosed fun _ _ => csuSetCsl_counted

theorem dtEnableDevice_counted {env : Env} {d : Device} {b : Bool} :
    Code.Within (dtEnableDevice env d b) (Code.Preserves (DisplayCounted env)) := by
  intro s w r s' h hs
  obtain ⟨-, ⟨-, -, rfl⟩ | ⟨-, s₁, s₂, hirqs, hprot, rfl⟩⟩ := dtEnableDevice_runs h
  · exact hs
  have hs₁ : DisplayCounted env s₁ := by
    intro ha
    rw [(dtEnableIrqs_runs hirqs).2.1.rest]
    exact hs ha
  have hs₂ : DisplayCounted env s₂ := by
    rcases hprot with ⟨-, hprot⟩ | ⟨-, -, rfl⟩
    · exact dtProtect_counted hprot hs₁
    · exact hs₁
  exact hs₂

theorem policy_counted {env : Env} {t : DeviceTable} {steps : List Between} :
    Code.Within (Code.forEach (·.policy env t) steps) (Code.Preserves (DisplayCounted env)) := by
  have hclosed := @Code.preserves_closed Sys Event (DisplayCounted env)
  refine Code.within_forEach hclosed fun x _ => ?_
  cases x with
  | enableClass name enable => exact within_dtEnableClass hclosed fun _ => dtEnableDevice_counted
  | clear r g b | blit x y image | blitAll blits => exact Code.within_pure hclosed ()

/-- `fb_release` does not stop where the display is mapped and counted. -/
theorem fbRelease_runs_of_count {env : Env} (info : FbInfo) {s : Sys}
    (hmap : s.fb.cpmemVaddr.isSome = true)
    (hcount : env.asserts = true → 1 ≤ s.csu.counts fbCsl.toNat) :
    ∃ w s', Code.Runs (fbRelease env info) s w () s' := by
  rcases Code.runs_or_stops (fbRelease env info) s with ⟨_, s', hrun⟩ | ⟨e, hstop⟩
  · exact ⟨_, s', hrun⟩
  obtain ⟨-, h⟩ := Code.stops_runIf.mp hstop
  obtain k₁ | ⟨_, _, s₁, _, h₁, k₁, -⟩ := Code.stops_bind.mp h
  · exact absurd hmap (modifyCpmems_stops (fun _ => ⟨_, rfl⟩) k₁).1
  have hdraw := (Code.within_forEach drawOnly_closed (fun _ _ => modifyCpmem_drawOnly _) h₁).rest
  obtain k₂ | ⟨_, _, _, _, -, k₂, -⟩ := Code.stops_bind.mp k₁
  · simp only [csuSetCsl, stops_kassert_bind, Code.stops_require_bind, Code.stops_get_bind,
      Code.stops_modify_bind, stops_logProt] at k₂
    have hcsu : s₁.csu = s.csu := by rw [hdraw]
    obtain ⟨-, hc, -⟩ | ⟨-, ⟨hc, -⟩ | ⟨-, ⟨hasserts, hneg, -⟩ | ⟨-, hfalse⟩⟩⟩ := k₂
    · exact absurd (show 0 ≤ fbCsl ∧ fbCsl < maxCsl by decide) hc
    · exact absurd (show 0 ≤ fbCsl ∧ fbCsl < maxCsl by decide) hc
    · have hpos := hcount hasserts
      rw [hcsu] at hneg
      exact absurd (Or.inr (by omega)) hneg
    · exact hfalse.elim
  · rw [Code.stops_get_bind] at k₂
    exact absurd k₂ (@emuRemoveRegion_total _ _ _ _ _ _)

/-! ## Acquire and release -/

/-- `fb_release` undoes `fb_acquire` in `s`: the framebuffer is handed out and given back, CPMEM is
restored, no other word of it is written, and the CSU and the regions are those of the same changes of
the policy without the framebuffer, unless these fail an assert on their own. -/
structure FbUndone (env : Env) (t : DeviceTable) (r g b : Byte) (s : Sys) (steps : List Between) :
    Prop where
  acquired : ∃ w s₁, Code.Runs (fbAcquire env r g b) s w (some (fbInfoOf env s.fb.cpmem)) s₁
  returns : ∀ {w₁ s₁ info}, Code.Runs (fbAcquire env r g b) s w₁ (some info) s₁ →
    (∃ w t', Code.Runs (Code.forEach (·.policy env t) steps) s w () t') →
      ∃ w₂ s₂ w₃ s', Code.Runs (Code.forEach (·.run env t info) steps) s₁ w₂ () s₂ ∧
        Code.Runs (fbRelease env info) s₂ w₃ () s'
  restored : ∀ {w₁ s₁ info w₂ s₂ w₃ s'}, Code.Runs (fbAcquire env r g b) s w₁ (some info) s₁ →
    Code.Runs (Code.forEach (·.run env t info) steps) s₁ w₂ () s₂ →
    Code.Runs (fbRelease env info) s₂ w₃ () s' →
      s'.fb.cpmem = s.fb.cpmem ∧
      (∀ i, ¬ FbWord i → s₁.fb.cpmem i = s.fb.cpmem i ∧ s₂.fb.cpmem i = s.fb.cpmem i) ∧
      ((∃ w t', Code.Runs (Code.forEach (·.policy env t) steps) s w () t' ∧
          s'.csu = t'.csu ∧ s'.regions.Perm t'.regions) ∨
        env.asserts = true ∧
          ∃ w, Code.Stops (Code.forEach (·.policy env t) steps) s w .assertion)

section Undo

variable {env : Env} {t : DeviceTable} {steps : List Between} {r g b : Byte} {s s₁ : Sys}
  {w₁ : List Event} {info : FbInfo}

/-- A run without the framebuffer has a counterpart with it, and the framebuffer can be given back. -/
theorem fbRelease_returns (hmalloc : ∀ n, env.malloc n = true) (hcsl : s.csu.Shows fbCsl.toNat)
    (hcount : 0 ≤ s.csu.counts fbCsl.toNat)
    (himages : ∀ x ∈ steps, ∀ image ∈ x.images, image.Exists)
    (h₁ : Code.Runs (fbAcquire env r g b) s w₁ (some info) s₁)
    (hpolicy : ∃ w t', Code.Runs (Code.forEach (·.policy env t) steps) s w () t') :
    ∃ w₂ s₂ w₃ s', Code.Runs (Code.forEach (·.run env t info) steps) s₁ w₂ () s₂ ∧
      Code.Runs (fbRelease env info) s₂ w₃ () s' := by
  obtain ⟨w, t', hpolicy⟩ := hpolicy
  obtain ⟨hinfo, hmap, -⟩ := fbAcquire_stages h₁
  have hcheck : (⟨s.fb.basePaddr, 0x400000, .fb⟩ : Region).check ≠ .denyAll := EmuCheck.noConfusion
  have hfollows := follows_between s₁.fb hmalloc hcheck t (fbInfoOf_sized env s.fb.cpmem)
    (fbAcquire_fits h₁) himages
  rw [← Option.some.inj hinfo] at hfollows
  obtain ⟨w₂, s₂, hrun, hst⟩ := hfollows.back (fbAcquire_beside hmalloc hcsl h₁) hpolicy
  have hmap₂ : s₂.fb.cpmemVaddr.isSome = true := by
    rw [between_fb hrun, (fbAcquire_fbOnly h₁).rest]
    exact hmap
  obtain ⟨w₃, s', hrelease⟩ := fbRelease_runs_of_count info hmap₂ fun hasserts => by
    have hkept := policy_counted hpolicy (fun _ => hcount) hasserts
    rw [hst.csu.counts, if_pos rfl]
    omega
  exact ⟨w₂, s₂, w₃, s', hrun, hrelease⟩

theorem fbRelease_restores {w₂ w₃ : List Event} {s₂ s' : Sys} (hmalloc : ∀ n, env.malloc n = true)
    (hcsl : s.csu.Shows fbCsl.toNat) (himages : ∀ x ∈ steps, ∀ image ∈ x.images, image.Exists)
    (h₁ : Code.Runs (fbAcquire env r g b) s w₁ (some info) s₁)
    (h₂ : Code.Runs (Code.forEach (·.run env t info) steps) s₁ w₂ () s₂)
    (h₃ : Code.Runs (fbRelease env info) s₂ w₃ () s') :
    s'.fb.cpmem = s.fb.cpmem ∧
      (∀ i, ¬ FbWord i → s₁.fb.cpmem i = s.fb.cpmem i ∧ s₂.fb.cpmem i = s.fb.cpmem i) ∧
      ((∃ w t', Code.Runs (Code.forEach (·.policy env t) steps) s w () t' ∧
          s'.csu = t'.csu ∧ s'.regions.Perm t'.regions) ∨
        env.asserts = true ∧
          ∃ w, Code.Stops (Code.forEach (·.policy env t) steps) s w .assertion) := by
  obtain ⟨hinfo, -, hother, -, -⟩ := fbAcquire_stages h₁
  have hfits := fbAcquire_fits h₁
  have hfb₂ : s₂.fb = { s₁.fb with mem := s₂.fb.mem } := between_fb h₂
  have hother₂ : ∀ i, ¬ FbWord i → s₂.fb.cpmem i = s.fb.cpmem i := by
    intro i hi
    rw [hfb₂]
    exact hother i hi
  obtain rfl := Option.some.inj hinfo
  obtain ⟨hcpmem, hcsu, hregions⟩ := fbRelease_stages hfits.buffer hother₂ h₃
  refine ⟨hcpmem, fun i hi => ⟨hother i hi, hother₂ i hi⟩, ?_⟩
  have hbase : s₂.fb.basePaddr = s.fb.basePaddr := by
    rw [hfb₂, (fbAcquire_fbOnly h₁).rest]
  have hcheck : (⟨s.fb.basePaddr, 0x400000, .fb⟩ : Region).check ≠ .denyAll := EmuCheck.noConfusion
  have hfollows := follows_between s₁.fb hmalloc hcheck t (fbInfoOf_sized env s.fb.cpmem) hfits
    himages
  rcases hfollows.forth (fbAcquire_beside hmalloc hcsl h₁) h₂ with
    ⟨w, t', hrun, hst⟩ | ⟨w, e, hstop, hasserts, rfl⟩
  · refine Or.inl ⟨w, t', hrun, ?_, ?_⟩
    · rw [hcsu, hst.csu.release]
    · rw [hregions, hbase]
      have herase := hst.regions.erase ⟨s.fb.basePaddr, 0x400000, .fb⟩
      rwa [List.erase_cons_head] at herase
  · exact Or.inr ⟨hasserts, w, hstop⟩

/-- `fb_release` undoes `fb_acquire` just where the screen that CPMEM describes is mapped and fits into
the memory of the framebuffer, whatever the rest of the state and whatever is done in between. -/
theorem fbRelease_undoes_iff (hmalloc : ∀ n, env.malloc n = true)
    (hcsl : s.csu.Shows fbCsl.toNat) (hcount : 0 ≤ s.csu.counts fbCsl.toNat)
    (himages : ∀ x ∈ steps, ∀ image ∈ x.images, image.Exists) :
    FbUndone env t r g b s steps ↔ s.DisplayReady env := by
  constructor
  · intro h
    exact fbAcquire_runs_iff.mp h.acquired
  · intro hready
    exact
      { acquired := fbAcquire_runs_iff.mpr hready
        returns := fun h₁ hpolicy => fbRelease_returns hmalloc hcsl hcount himages h₁ hpolicy
        restored := fun h₁ h₂ h₃ => fbRelease_restores hmalloc hcsl himages h₁ h₂ h₃ }

end Undo

namespace Board

/-- The radio is cloaked, the screen cleared and the radio uncloaked and cloaked again. -/
def wifiTwice : List Between :=
  [.enableClass (ascii ['w', 'i', 'f', 'i']) false, .clear 1 2 3,
    .enableClass (ascii ['w', 'i', 'f', 'i']) true, .enableClass (ascii ['w', 'i', 'f', 'i']) false]
end Board

theorem fbRelease_undoes_wifi :
    FbUndone imx6Release Board.table 0 0 0 (Board.booted imx6Release 0) Board.wifiTwice ∧
      ∃ w t', Code.Runs (Code.forEach (·.policy imx6Release Board.table) Board.wifiTwice)
        (Board.booted imx6Release 0) w () t' := by
  have hready : (Board.booted imx6Release 0).DisplayReady imx6Release :=
    ⟨by decide +kernel, by decide +kernel, by decide +kernel⟩
  refine ⟨(fbRelease_undoes_iff (fun _ => rfl) (show _ = _ by decide +kernel) (by decide +kernel)
    (by simp [Board.wifiTwice, Between.images])).mpr hready, ?_⟩
  obtain ⟨_, hrun⟩ := Code.runs_after (s := Board.booted imx6Release 0)
    (m := Code.forEach (·.policy imx6Release Board.table) Board.wifiTwice) (by decide +kernel)
  exact ⟨_, _, hrun⟩

/-- Of the largest screen bytes behind the framebuffer are cleared, and nothing is given back. -/
theorem not_fbUndone_largest :
    let s := (Board.booted imx6 0).withCpmem fun _ => 0xFFFFFFFF
    (∀ n, imx6.malloc n = true) ∧ s.csu.Shows fbCsl.toNat ∧ 0 ≤ s.csu.counts fbCsl.toNat ∧
      (∃ pa, .pixel pa ∈ (fbAcquire imx6 0 0 0 s).events ∧ fbmemStart.toNat + fbmemSize ≤ pa) ∧
      ¬ FbUndone imx6 Board.table 0 0 0 s [] := by
  intro s
  have hcsl : s.csu.Shows fbCsl.toNat := show _ = _ by decide +kernel
  refine ⟨fun _ => rfl, hcsl, by decide +kernel,
    fbAcquire_overdraws (by decide +kernel) (by decide +kernel) (by decide +kernel), fun h => ?_⟩
  have hready := fbAcquire_runs_iff.mp h.acquired
  exact absurd hready.2.bytes (by decide +kernel)

end SeCloak
