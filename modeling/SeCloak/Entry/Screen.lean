import SeCloak.Drivers.DtFaults
import SeCloak.Drivers.FbBounds
import SeCloak.Entry.System

/-!
# The bytes that a `CLOAK_SET` draws

Only the drawing functions write to the framebuffer, and they write through the size that
`fb_acquire` read from CPMEM when the call began. So every byte that a `CLOAK_SET` draws lies in the
memory reserved for the framebuffer exactly if the screen fits into it.
-/

namespace SeCloak
open Misc

/-! ## Everything else draws nothing -/

section Silent

variable {env : Env} {P : Event → Prop}

theorem kassert_emits {p : Prop} [Decidable p] : Code.Emits P (kassert env p) :=
  Code.emits_ite (Code.emits_throw _) (Code.emits_pure ())

theorem malloc_emits : Code.Emits P (malloc env) := by
  refine Code.emits_bind Code.emits_get fun _ => ?_
  exact Code.emits_bind (Code.emits_modify _) fun _ => Code.emits_pure _

theorem irqCheckValid_emits {d : IrqDesc} : Code.Emits P (irqCheckValid d) :=
  Code.emits_bind Code.emits_get fun _ => Code.emits_require _

theorem setHandler_emits {d : IrqDesc} {handler : Option Handler} :
    Code.Emits P (setHandler d handler) := by
  refine Code.emits_bind Code.emits_get fun s => ?_
  split
  · exact Code.emits_throw _
  · exact Code.emits_modify _

theorem gicAssertGroup0_emits {it : Nat} : Code.Emits P (gicAssertGroup0 env it) :=
  Code.emits_bind Code.emits_get fun _ => kassert_emits

theorem modifyPin_emits {n irq : Nat} {f : Port → Port} : Code.Emits P (modifyPin n irq f) :=
  Code.emits_of_silent (fun _ _ _ _ h => (modifyPin_runs h).2.1) fun _ _ _ h => (modifyPin_stops h).1

theorem irqAdd_emits {d : IrqDesc} {flags : Word} {handler : Handler} :
    Code.Emits P (irqAdd env d flags handler) := by
  refine Code.emits_bind irqCheckValid_emits fun _ => ?_
  refine Code.emits_bind setHandler_emits fun _ => ?_
  have hgic : Code.Emits P (gicOpAdd env d.irq) := by
    refine Code.emits_bind (Code.emits_modify _) fun _ => ?_
    refine Code.emits_bind gicAssertGroup0_emits fun _ => ?_
    refine Code.emits_bind (Code.emits_modify _) fun _ => ?_
    refine Code.emits_bind gicAssertGroup0_emits fun _ => ?_
    exact Code.emits_bind (Code.emits_modify _) fun _ => Code.emits_pure _
  cases d.chip with
  | gic => exact hgic
  | gpc => exact hgic
  | gpio n =>
    refine Code.emits_bind Code.emits_get fun s => ?_
    split
    · exact Code.emits_throw _
    · exact modifyPin_emits

theorem irqEnable_emits {d : IrqDesc} : Code.Emits P (irqEnable env d) :=
  Code.emits_of_silent (fun _ _ _ _ h => (irqEnable_runs h).1) fun _ _ _ h => (irqEnable_stops h).1

theorem irqDisable_emits {d : IrqDesc} : Code.Emits P (irqDisable d) :=
  Code.emits_of_silent (fun _ _ _ _ h => (irqDisable_runs h).1) fun _ _ _ h => (irqDisable_stops h).1

theorem irqRemove_emits {d : IrqDesc} : Code.Emits P (irqRemove d) := by
  refine Code.emits_bind irqCheckValid_emits fun _ => ?_
  have hrest : ∀ error : Int, Code.Emits P (do
      Code.runIf (error = 0) (setHandler d none)
      pure error) :=
    fun _ => Code.emits_bind (Code.emits_runIf setHandler_emits) fun _ => Code.emits_pure _
  cases d.chip with
  | gic => exact Code.emits_bind (Code.emits_throw _) hrest
  | gpc => exact Code.emits_bind (Code.emits_throw _) hrest
  | gpio n => exact Code.emits_bind modifyPin_emits hrest

theorem forEachButton_emits {k : KeysData} {f : Nat → IrqDesc → Kernel Unit}
    (hf : ∀ b d, Code.Emits P (f b d)) : Code.Emits P (forEachButton k f) := by
  refine Code.emits_forEach fun b _ => ?_
  split
  · exact Code.emits_throw _
  · exact hf _ _

theorem gpioKeysAcquire_emits {handler : ButtonHandler} :
    Code.Emits P (gpioKeysAcquire env handler) := by
  refine Code.emits_bind Code.emits_get fun s => ?_
  split
  · exact Code.emits_throw _
  · refine Code.emits_bind (Code.emits_runIf (forEachButton_emits fun b d => ?_)) fun _ => ?_
    · refine Code.emits_bind irqAdd_emits fun _ => ?_
      exact Code.emits_bind irqEnable_emits fun _ => Code.emits_pure _
    · exact Code.emits_bind (Code.emits_modify _) fun _ => Code.emits_pure _

theorem gpioKeysRelease_emits {handler : ButtonHandler} :
    Code.Emits P (gpioKeysRelease handler) := by
  refine Code.emits_bind Code.emits_get fun s => ?_
  split
  · exact Code.emits_throw _
  · refine Code.emits_bind (Code.emits_modify _) fun _ => ?_
    refine Code.emits_runIf (forEachButton_emits fun b d => ?_)
    refine Code.emits_bind irqDisable_emits fun _ => ?_
    exact Code.emits_bind irqRemove_emits fun _ => Code.emits_pure _

theorem pressAll_emits {code : Word} {handlers : List ButtonHandler} {consume : Bool} :
    Code.Emits P (pressAll code handlers consume) := by
  induction handlers generalizing consume with
  | nil => exact Code.emits_pure _
  | cons h hs ih =>
    refine Code.emits_bind ?_ fun _ => ih
    cases h with
    | cloak => exact Code.emits_bind (Code.emits_modify _) fun _ => Code.emits_pure _
    | secpwr => exact Code.emits_bind (Code.emits_modify _) fun _ => Code.emits_pure _

theorem cloakWait_emits {presses : List Word} : Code.Emits P (cloakWait presses) := by
  induction presses with
  | nil => exact Code.emits_throw _
  | cons code codes ih =>
    refine Code.emits_bind (Code.emits_bind Code.emits_get fun s => ?_) fun _ => ?_
    · split
      · exact Code.emits_throw _
      · exact pressAll_emits
    · exact Code.emits_bind Code.emits_get fun _ => Code.emits_ite ih (Code.emits_pure ())

theorem modifyCpmem_emits {f : (Nat → Word) → Nat → Word} : Code.Emits P (modifyCpmem f) := by
  refine Code.emits_bind Code.emits_get fun _ => ?_
  exact Code.emits_bind (Code.emits_require _) fun _ => Code.emits_modify _

end Silent

section Quiet

variable {env : Env} {P : Event → Prop} (hprot : ∀ t, P (.prot t))
include hprot

theorem logProt_emits : Code.Emits P logProt := by
  intro s e he
  rw [List.mem_singleton.mp he]
  exact hprot s

theorem csuSetCsl_emits {csl : Int} {protect : Bool} : Code.Emits P (csuSetCsl env csl protect) := by
  refine Code.emits_bind kassert_emits fun _ => ?_
  refine Code.emits_bind (Code.emits_require _) fun _ => ?_
  refine Code.emits_bind Code.emits_get fun _ => ?_
  refine Code.emits_bind kassert_emits fun _ => ?_
  exact Code.emits_bind (Code.emits_modify _) fun _ => logProt_emits hprot

theorem emuAddRegion_emits {base size : Word} {check : EmuCheck} :
    Code.Emits P (emuAddRegion env base size check) := by
  refine Code.emits_bind malloc_emits fun _ => ?_
  refine Code.emits_bind (Code.emits_runIf (Code.emits_modify _)) fun _ => ?_
  exact Code.emits_bind (logProt_emits hprot) fun _ => Code.emits_pure _

theorem emuRemoveRegion_emits {base size : Word} {check : EmuCheck} :
    Code.Emits P (emuRemoveRegion base size check) :=
  Code.emits_bind (Code.emits_modify _) fun _ => logProt_emits hprot

theorem dtProtect_emits {d : Device} {b : Bool} : Code.Emits P (dtProtect env d b) := by
  refine Code.emits_ite ?_ ?_
  · refine Code.emits_bind (Code.emits_forEach fun _ _ => csuSetCsl_emits hprot) fun _ => ?_
    exact Code.emits_forEach fun _ _ => emuRemoveRegion_emits hprot
  · refine Code.emits_bind (Code.emits_forEach fun _ _ => ?_) fun _ => ?_
    · exact Code.emits_bind (emuAddRegion_emits hprot) fun _ => Code.emits_pure _
    · exact Code.emits_forEach fun _ _ => csuSetCsl_emits hprot

theorem dtEnableDevice_emits {d : Device} {b : Bool} : Code.Emits P (dtEnableDevice env d b) := by
  refine Code.emits_bind Code.emits_get fun _ => ?_
  refine Code.emits_bind (Code.emits_runIf ?_) fun _ => Code.emits_pure _
  refine Code.emits_bind ?_ fun _ => ?_
  · exact Code.emits_of_silent (fun _ _ _ _ h => (dtEnableIrqs_runs h).1)
      fun _ _ _ h => (dtEnableIrqs_stops h).1
  · refine Code.emits_bind (Code.emits_runIf (dtProtect_emits hprot)) fun _ => ?_
    exact Code.emits_modify _

theorem dtEnableParents_emits {d : Device} {b : Bool} : Code.Emits P (dtEnableParents env b d) := by
  induction d with
  | root i => exact Code.emits_bind (dtEnableDevice_emits hprot) fun _ => Code.emits_pure _
  | child i p ih =>
    refine Code.emits_bind (dtEnableDevice_emits hprot) fun _ => ?_
    exact Code.emits_ite (Code.emits_pure _) ih

theorem dtEnableClass_emits {t : DeviceTable} {name : CString} {b : Bool} :
    Code.Emits P (dtEnableClass env t name b) := by
  refine Code.emits_forEach fun d _ => Code.emits_runIf ?_
  refine Code.emits_bind Code.emits_get fun _ => Code.emits_runIf (dtEnableParents_emits hprot)

theorem cloakApply_emits {t : DeviceTable} {classes : List (CString × Bool)} :
    Code.Emits P (cloakApply env t classes) := by
  refine Code.emits_bind (Code.emits_forEach fun _ _ => dtEnableClass_emits hprot) fun _ => ?_
  exact Code.emits_forEach fun _ _ => Code.emits_runIf (dtEnableClass_emits hprot)

theorem fbRelease_emits {info : FbInfo} : Code.Emits P (fbRelease env info) := by
  refine Code.emits_runIf ?_
  refine Code.emits_bind (Code.emits_forEach fun _ _ => modifyCpmem_emits) fun _ => ?_
  refine Code.emits_bind (csuSetCsl_emits hprot) fun _ => ?_
  exact Code.emits_bind Code.emits_get fun _ => emuRemoveRegion_emits hprot

end Quiet

/-! ## The dialog -/

theorem displayStatic_small : ∀ b ∈ displayStatic, b.image.Small := by
  unfold Image.Small
  decide

/-- All images that are drawn for a class, a group or a mode have a fixed width. -/
theorem small_of_width {image : Image} {w : Nat} (h : image.width = BitVec.ofNat 32 w)
    (hw : w ≤ 2 ^ 16) : image.Small := by
  unfold Image.Small
  rw [h, BitVec.toNat_ofNat]
  omega

theorem cloakClasses_small : ∀ c ∈ cloakClasses,
    (∀ bits, (c.switches bits).Small) ∧ ∀ i, (c.icons i).Small := by
  have hblue : ∀ bits, (displaySwitchesBlue bits).Small :=
    fun _ => small_of_width (w := 64) rfl (by decide)
  have hwhite : ∀ bits, (displaySwitchesWhite bits).Small :=
    fun _ => small_of_width (w := 64) rfl (by decide)
  have hicon : ∀ off on i, (displayIcons off on i).Small :=
    fun _ _ _ => small_of_width (w := 64) rfl (by decide)
  intro c hc
  simp only [cloakClasses, List.mem_cons, List.not_mem_nil, or_false] at hc
  rcases hc with rfl | rfl | rfl | rfl | rfl | rfl | rfl | rfl
  · exact ⟨hblue, hicon _ _⟩
  · exact ⟨hwhite, hicon _ _⟩
  · exact ⟨hblue, hicon _ _⟩
  · exact ⟨hblue, hicon _ _⟩
  · exact ⟨hwhite, hicon _ _⟩
  · exact ⟨hblue, hicon _ _⟩
  · exact ⟨hblue, hicon _ _⟩
  · exact ⟨hwhite, hicon _ _⟩

theorem displayGroup_small (en selected : Bool) :
    (displayGroupOn en).Small ∧ (displayGroupOff en).Small ∧ (displayGroupCustom en).Small ∧
      (displayGroupRadio en selected).Small ∧ (displayMode selected).Small := by
  refine ⟨?_, ?_, ?_, ?_, ?_⟩
  all_goals exact small_of_width (w := 64) rfl (by decide)

section Dialog

variable {env : Env} {info : FbInfo} {P : Event → Prop} (h : info.Sized) (hP : info.Draws P)
include h hP

theorem cloakBlitClasses_emits {a1 : Word} {cs : List CloakClass}
    (hcs : ∀ c ∈ cs, (∀ bits, (c.switches bits).Small) ∧ ∀ i, (c.icons i).Small) :
    Code.Emits P (cloakBlitClasses env info a1 cs) := by
  induction cs with
  | nil => exact Code.emits_pure _
  | cons c cs ih =>
    obtain ⟨hc, hcs'⟩ := List.forall_mem_cons.mp hcs
    refine Code.emits_bind ?_ fun _ => ?_
    · refine Code.emits_bind (fbBlitImage_emits h hP (hc.1 _)) fun _ => ?_
      exact Code.emits_bind (fbBlitImage_emits h hP (hc.2 _)) fun _ => Code.emits_pure _
    · exact Code.emits_bind (ih hcs') fun _ => Code.emits_pure _

theorem cloakBlitGroup_emits {bits x : Word} :
    Code.Emits P (cloakBlitGroup env info bits x) := by
  have hgroup := displayGroup_small
  refine Code.emits_bind ?_ fun en => ?_
  · exact Code.emits_bind (Code.emits_require _) fun _ => Code.emits_pure _
  · refine Code.emits_bind (fbBlitImage_emits h hP (hgroup en true).1) fun _ => ?_
    refine Code.emits_bind (fbBlitImage_emits h hP (hgroup en true).2.1) fun _ => ?_
    refine Code.emits_bind (fbBlitImage_emits h hP (hgroup en true).2.2.1) fun _ => ?_
    refine Code.emits_bind (fbBlitImage_emits h hP (hgroup en _).2.2.2.1) fun _ => ?_
    refine Code.emits_bind (fbBlitImage_emits h hP (hgroup en _).2.2.2.1) fun _ => ?_
    exact fbBlitImage_emits h hP (hgroup en _).2.2.2.1

theorem cloakBlitRest_emits {a1 : Word} :
    Code.Emits P (cloakBlitRest env info a1) := by
  have hmode := fun selected => (displayGroup_small true selected).2.2.2.2
  refine Code.emits_bind (cloakBlitGroup_emits h hP) fun _ => ?_
  refine Code.emits_bind (cloakBlitGroup_emits h hP) fun _ => ?_
  refine Code.emits_bind (cloakBlitGroup_emits h hP) fun _ => ?_
  refine Code.emits_bind (fbBlitImage_emits h hP (hmode _)) fun _ => ?_
  refine Code.emits_bind (fbBlitImage_emits h hP (hmode _)) fun _ => ?_
  refine Code.emits_bind (fbBlitImage_emits h hP (hmode _)) fun _ => ?_
  exact fbBlitImage_emits h hP (hmode _)

theorem cloakDialog_emits {t : DeviceTable} {presses : List Word} {a1 : Word}
    (hprot : ∀ t, P (.prot t)) : Code.Emits P (cloakDialog env t presses info a1) := by
  refine Code.emits_bind (Code.emits_forEach fun b hb => ?_) fun _ => ?_
  · exact fbBlitImage_emits h hP (displayStatic_small b hb)
  refine Code.emits_bind (cloakBlitClasses_emits h hP cloakClasses_small) fun _ => ?_
  refine Code.emits_bind (cloakBlitRest_emits h hP) fun _ => ?_
  refine Code.emits_bind (Code.emits_modify _) fun _ => ?_
  refine Code.emits_bind cloakWait_emits fun _ => ?_
  refine Code.emits_bind ?_ fun _ => gpioKeysRelease_emits
  refine Code.emits_bind Code.emits_get fun _ => Code.emits_ite ?_ (fbClear_emits h hP)
  refine Code.emits_bind (cloakApply_emits hprot) fun _ => ?_
  exact Code.emits_bind (Code.emits_modify _) fun _ => fbClear_emits h hP

end Dialog

/-! ## Taking the display -/

theorem fbAcquire_events {env : Env} {r g b : Byte} {s : Sys} {n : Nat}
    (hn : s.fb.cpmemVaddr.isSome = true → env.fbVaddr.isSome = true →
      (fbInfoOf env s.fb.cpmem).bytes ≤ n) :
    ∀ x ∈ (fbAcquire env r g b s).events, PixelBelow n x := by
  intro x hx
  have hprot : ∀ t, PixelBelow n (.prot t) := fun _ _ hpa => by cases hpa
  rw [fbAcquire, Code.events_bind_of_runs (Code.runs_get.mpr ⟨rfl, rfl, rfl⟩), List.nil_append] at hx
  obtain k₁ | ⟨_, _, s₁, h₁, x₁⟩ := Code.mem_events_bind.mp hx
  · exact emuAddRegion_emits hprot _ x k₁
  obtain k₂ | ⟨_, _, s₂, h₂, x₂⟩ := Code.mem_events_bind.mp x₁
  · exact csuSetCsl_emits hprot _ x k₂
  have hfb : s₂.fb = s.fb := by
    rw [(csuSetCsl_runs h₂).2.2.1, (emuAddRegion_runs h₁).2]
  obtain k₃ | ⟨_, m, s₃, h₃, x₃⟩ := Code.mem_events_bind.mp x₂
  · exact (Code.emits_bind (P := fun _ => False) Code.emits_get
      (fun _ => Code.emits_bind (Code.emits_require _) fun _ => Code.emits_pure _) _ x k₃).elim
  rw [readCpmem, Code.runs_get_bind, Code.runs_require_bind, Code.runs_pure, hfb] at h₃
  obtain ⟨hmap, -, rfl, -⟩ := h₃
  have hsized := fbInfoOf_sized env s.fb.cpmem
  obtain k₄ | ⟨_, _, s₄, -, x₄⟩ := Code.mem_events_bind.mp x₃
  · exact fbClear_emits hsized (pixelBelow_draws (hn hmap)) _ x k₄
  · exact (Code.emits_bind (P := fun _ => False)
      (Code.emits_forEach fun _ _ => modifyCpmem_emits) (fun _ => Code.emits_pure _) _ x x₄).elim

/-! ## The call -/

/-- The condition under which a call draws inside of the framebuffer: where it gets to draw at all,
the screen fits into the memory reserved for it. -/
def ScreenFits (env : Env) (args : SmcArgs) (s : Sys) : Prop :=
  args.a0 = opteeSmcCloakSet → s.cloak.lock = 0 → s.fb.cpmemVaddr.isSome = true →
    env.fbVaddr.isSome = true → (fbInfoOf env s.fb.cpmem).bytes ≤ fbmemSize

theorem cloakSetBody_events {env : Env} {t : DeviceTable} {presses : List Word} {a1 : Word} {s : Sys}
    {n : Nat} (hn : s.fb.cpmemVaddr.isSome = true → env.fbVaddr.isSome = true →
      (fbInfoOf env s.fb.cpmem).bytes ≤ n) :
    ∀ x ∈ (cloakSetBody env t presses a1 s).events, PixelBelow n x := by
  intro x hx
  have hprot : ∀ t, PixelBelow n (.prot t) := fun _ _ hpa => by cases hpa
  obtain k₁ | ⟨w, res, s₁, h₁, x₁⟩ := Code.mem_events_bind.mp hx
  · exact fbAcquire_events hn x k₁
  obtain ⟨rfl, hmap, -⟩ := fbAcquire_stages h₁
  have hsized := fbInfoOf_sized env s.fb.cpmem
  have hrest : Code.Emits (PixelBelow n) (do
      let ok ← gpioKeysAcquire env .cloak
      Code.runIf (ok = true) (cloakDialog env t presses (fbInfoOf env s.fb.cpmem) a1)
      fbRelease env (fbInfoOf env s.fb.cpmem)
      pure (if ok then opteeSmcReturnOk else opteeSmcReturnEbadcmd)) := by
    refine Code.emits_bind gpioKeysAcquire_emits fun _ => ?_
    have hdraws : (fbInfoOf env s.fb.cpmem).Draws (PixelBelow n) := pixelBelow_draws (hn hmap)
    refine Code.emits_bind (Code.emits_runIf (cloakDialog_emits hsized hdraws hprot)) fun _ => ?_
    exact Code.emits_bind (fbRelease_emits hprot) fun _ => Code.emits_pure _
  exact hrest s₁ x x₁

theorem cpuSpinTrylock_free {s : Sys} (hlock : s.cloak.lock = 0) :
    Code.Runs cpuSpinTrylock s [] true s.locked :=
  cpuSpinTrylock_runs.mpr ⟨rfl, Or.inl ⟨hlock, rfl, rfl⟩⟩

theorem cloakEntrySet_events {env : Env} {t : DeviceTable} {presses : List Word} {args : SmcArgs}
    {s : Sys} {x : Event} : x ∈ (cloakEntrySet env t presses args s).events ↔
      s.cloak.lock = 0 ∧ x ∈ (cloakSetBody env t presses args.a1 s.locked).events := by
  have hunlock : ∀ n (a : SmcArgs), Code.Emits (fun _ => False) (do
      cpuSpinUnlock env n
      pure a) := by
    intro n a
    refine Code.emits_bind ?_ fun _ => Code.emits_pure _
    exact Code.emits_bind (Code.emits_modify _) fun _ => kassert_emits
  by_cases hlock : s.cloak.lock = 0
  · rw [cloakEntrySet, Code.events_bind_of_runs (cpuSpinTrylock_free hlock), List.nil_append,
      if_pos rfl, Code.mem_events_bind]
    constructor
    · rintro (hx | ⟨_, _, s', -, hx⟩)
      · exact ⟨hlock, hx⟩
      · exact (hunlock _ _ s' x hx).elim
    · rintro ⟨-, hx⟩
      exact Or.inl hx
  · have hbusy : Code.Runs cpuSpinTrylock s [] false s :=
      cpuSpinTrylock_runs.mpr ⟨rfl, Or.inr ⟨hlock, rfl, rfl⟩⟩
    rw [cloakEntrySet, Code.events_bind_of_runs hbusy, List.nil_append, if_neg Bool.false_ne_true]
    constructor
    · intro hx
      exact (hunlock _ _ s x hx).elim
    · rintro ⟨h, -⟩
      exact absurd h hlock

theorem cloakEntryGet_emits {env : Env} {args : SmcArgs} {P : Event → Prop} :
    Code.Emits P (cloakEntryGet env args) := by
  have hunlock : ∀ n, Code.Emits P (cpuSpinUnlock env n) :=
    fun _ => Code.emits_bind (Code.emits_modify _) fun _ => kassert_emits
  refine Code.emits_bind (Code.emits_bind Code.emits_get fun _ => ?_) fun _ => ?_
  · refine Code.emits_ite ?_ (Code.emits_pure _)
    exact Code.emits_bind (Code.emits_modify _) fun _ => Code.emits_pure _
  · refine Code.emits_ite ?_ (Code.emits_bind (hunlock _) fun _ => Code.emits_pure _)
    refine Code.emits_bind (Code.emits_bind Code.emits_get fun _ => Code.emits_pure _) fun _ => ?_
    exact Code.emits_bind (hunlock _) fun _ => Code.emits_pure _

/-- A screen that does not fit is drawn over the end of the framebuffer. -/
theorem cloakEntry_overdraws {env : Env} {t : DeviceTable} {presses : List Word} {args : SmcArgs}
    {s : Sys} (hset : args.a0 = opteeSmcCloakSet) (hlock : s.cloak.lock = 0)
    (hmap : s.fb.cpmemVaddr.isSome = true) (hbuf : env.fbVaddr.isSome = true)
    (hbig : fbmemSize < (fbInfoOf env s.fb.cpmem).bytes) :
    ∃ pa, .pixel pa ∈ (cloakEntry env t presses args s).events ∧
      fbmemStart.toNat + fbmemSize ≤ pa := by
  obtain ⟨pa, hmem, hle⟩ := @fbAcquire_overdraws env 0xFF 0xFF 0xFF s.locked hmap hbuf hbig
  refine ⟨pa, ?_, hle⟩
  rw [cloakEntry, if_pos hset, cloakEntrySet_events]
  exact ⟨hlock, Code.mem_events_bind.mpr (Or.inl hmem)⟩

/-- Every byte that a call draws lies in the framebuffer exactly if the screen fits into it, for
every content of CPMEM, every argument and every state. -/
theorem drawn_inside_iff {env : Env} {t : DeviceTable} {presses : List Word} {args : SmcArgs}
    {s : Sys} : (∀ pa, .pixel pa ∈ (cloakEntry env t presses args s).events →
        fbmemStart.toNat ≤ pa ∧ pa < fbmemStart.toNat + fbmemSize) ↔ ScreenFits env args s := by
  constructor
  · intro h hset hlock hmap hbuf
    by_contra hbig
    obtain ⟨pa, hmem, hle⟩ :=
      @cloakEntry_overdraws env t presses args s hset hlock hmap hbuf (Nat.not_le.mp hbig)
    exact absurd (h pa hmem).2 (Nat.not_lt.mpr hle)
  · intro hfits pa hmem
    rw [cloakEntry] at hmem
    by_cases hset : args.a0 = opteeSmcCloakSet
    · rw [if_pos hset, cloakEntrySet_events] at hmem
      exact cloakSetBody_events (s := s.locked) (hfits hset hmem.1) _ hmem.2 pa rfl
    · rw [if_neg hset] at hmem
      refine (Code.emits_ite (P := fun _ => False) cloakEntryGet_emits ?_ s _ hmem).elim
      exact Code.emits_pure _

theorem sysStep_withCpmem (env : Env) (t : DeviceTable) (s : Sys) (m : Nat → Word) :
    sysStep env t s ⟨.other, []⟩ (s.withCpmem m) := ⟨rfl, rfl, fun _ => rfl⟩

/-- The largest screen that CPMEM can describe. -/
def Board.largestScreen : Sys := (Board.booted imx6 0).withCpmem fun _ => 0xFFFFFFFF

/-- The non-secure world programs the largest screen; a `CLOAK_SET` then writes behind the
framebuffer. -/
theorem drawn_outside_board :
    Booted imx6 (Board.booted imx6 0) ∧
      Steps (sysStep imx6 Board.table) (Board.booted imx6 0) [⟨.other, []⟩] Board.largestScreen ∧
      (fbInfoOf imx6 Board.largestScreen.fb.cpmem).width = 8192 ∧
      (fbInfoOf imx6 Board.largestScreen.fb.cpmem).height = 4096 ∧
      ∃ pa, .pixel pa ∈ (cloakEntry imx6 Board.table Board.cloakAll.presses Board.cloakAll.args
          Board.largestScreen).events ∧ fbmemStart.toNat + fbmemSize ≤ pa := by
  refine ⟨Board.booted_ok, .cons (sysStep_withCpmem _ _ _ _) (.nil _), by decide +kernel,
    by decide +kernel, ?_⟩
  exact cloakEntry_overdraws rfl (by decide +kernel) (by decide +kernel) (by decide +kernel)
    (by decide +kernel)

end SeCloak
