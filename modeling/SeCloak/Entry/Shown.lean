import SeCloak.Entry.Panic

/-!
# What the screen shows and what is enforced

The screen is a fixed sequence of images that depends on the settings alone. A switch shows both
bits of its class: the knob follows the lower one, and whether it is drawn active the upper one. The
class is allowed by the upper bit. The groups are drawn from bits of their own, which nothing compares
with those of their classes. So screen and policy agree only for settings that are consistent.
-/

namespace SeCloak
open Misc

/-! ## Images -/

/-- The images that a run draws, with their positions. -/
def blits (w : List Event) : List (Word × Word × Bitmap) :=
  w.filterMap fun e => match e with
    | .blit x y b => some (x, y, b)
    | _ => none

@[simp] theorem blits_append (w w' : List Event) : blits (w ++ w') = blits w ++ blits w' :=
  List.filterMap_append

theorem mem_blits {w : List Event} {x y : Word} {b : Bitmap} :
    (x, y, b) ∈ blits w ↔ .blit x y b ∈ w := by
  unfold blits
  rw [List.mem_filterMap]
  constructor
  · rintro ⟨e, he, hb⟩
    cases e with
    | blit x' y' b' =>
      cases hb
      exact he
    | _ => cases hb
  · intro h
    exact ⟨.blit x y b, h, rfl⟩

/-- Every run of `m` draws the images `l`. -/
def Shows {α : Type} (m : Kernel α) (l : List (Word × Word × Bitmap)) : Prop :=
  Code.Within m fun _ w _ => blits w = l

/-- An event that is no image. -/
def Event.NoBlit (e : Event) : Prop := ∀ x y b, e ≠ .blit x y b

section Rules

variable {α β : Type} {m : Kernel α} {f : α → Kernel β} {l l' : List (Word × Word × Bitmap)}

theorem shows_bind (hm : Shows m l) (hf : ∀ a, Shows (f a) l') : Shows (m >>= f) (l ++ l') := by
  intro s w b s' h
  obtain ⟨w₁, a, s₁, w₂, h₁, h₂, rfl⟩ := Code.runs_bind.mp h
  rw [blits_append, hm h₁, hf a h₂]

theorem shows_of_emits (h : Code.Emits Event.NoBlit m) : Shows m [] := by
  intro s w a s' hr
  have hw : (m s).events = w := by rw [hr]
  rw [List.eq_nil_iff_forall_not_mem]
  rintro ⟨x, y, b⟩ hmem
  rw [mem_blits, ← hw] at hmem
  exact h s _ hmem x y b rfl

theorem shows_bind_pure {g : α → β} (hm : Shows m l) :
    Shows (m >>= fun a => (pure (g a) : Kernel β)) l := by
  have hpure : ∀ a, Shows (pure (g a) : Kernel β) [] :=
    fun a => shows_of_emits (Code.emits_pure (g a))
  have h := shows_bind hm hpure
  rwa [List.append_nil] at h

theorem shows_forEach {γ : Type} {g : γ → Kernel Unit} {image : γ → Word × Word × Bitmap}
    (hg : ∀ x, Shows (g x) [image x]) (xs : List γ) : Shows (Code.forEach g xs) (xs.map image) := by
  induction xs with
  | nil => exact shows_of_emits (Code.emits_pure _)
  | cons x xs ih => exact shows_bind (hg x) fun _ => ih

end Rules

section Draw

variable {env : Env} {info : FbInfo}

theorem noBlit_prot (u : Sys) : (Event.prot u).NoBlit := fun _ _ _ h => by cases h

theorem noBlit_pixel (pa : Nat) : (Event.pixel pa).NoBlit := fun _ _ _ h => by cases h

theorem fbClear_noBlit {r g b : Byte} : Code.Emits Event.NoBlit (fbClear info r g b) := by
  refine Code.emits_forEach fun y _ => Code.emits_forEach fun x _ => ?_
  refine Code.emits_bind (fbStore_emits fun _ => noBlit_pixel _) fun _ => ?_
  refine Code.emits_bind (fbStore_emits fun _ => noBlit_pixel _) fun _ => ?_
  exact fbStore_emits fun _ => noBlit_pixel _

theorem fbBlitImage_shows (x y : Word) (image : Image) :
    Shows (fbBlitImage env info x y image) [(x, y, image.bitmap)] := by
  have hemit : Shows (Code.emit fun _ => .blit x y image.bitmap) [(x, y, image.bitmap)] := by
    intro s w u s' h
    obtain ⟨rfl, -⟩ := Code.runs_emit.mp h
    rfl
  have hblit : Shows (fbBlit env info x y image) [] := by
    apply shows_of_emits
    refine Code.emits_runIf (Code.emits_forEach fun _ _ => Code.emits_forEach fun _ _ => ?_)
    exact fbStore_emits fun _ => noBlit_pixel _
  exact shows_bind hemit fun _ => hblit

theorem fbBlitImage_bind_shows {β : Type} {x y : Word} {image : Image} {f : Unit → Kernel β}
    {l : List (Word × Word × Bitmap)} (hf : Shows (f ()) l) :
    Shows (fbBlitImage env info x y image >>= f) ((x, y, image.bitmap) :: l) :=
  shows_bind (fbBlitImage_shows x y image) fun _ => hf

/-- The images of a class: its switch and its icon. -/
def CloakClass.blits (c : CloakClass) (a1 : Word) : List (Word × Word × Bitmap) :=
  [(c.x, 0, (c.switches (c.bits a1)).bitmap), (c.x, 608, (c.icons true).bitmap)]

theorem cloakBlitClasses_shows (a1 : Word) (cs : List CloakClass) :
    Shows (cloakBlitClasses env info a1 cs) (cs.flatMap (·.blits a1)) := by
  induction cs with
  | nil => exact shows_of_emits (Code.emits_pure _)
  | cons c cs ih =>
    have hc : Shows (cloakBlitDevice env info (c.bits a1) c.x c.switches c.icons) (c.blits a1) :=
      shows_bind (fbBlitImage_shows _ _ _) fun _ => shows_bind_pure (fbBlitImage_shows _ _ _)
    exact shows_bind hc fun _ => shows_bind_pure ih

/-- Whether the buttons of a group are drawn active. -/
def groupActive (bits : Word) : Bool := decide (bits = 1 ∨ bits = 7 ∨ bits = 5)

/-- The images of a group: three labels and three radio buttons. -/
def groupBlits (bits x : Word) : List (Word × Word × Bitmap) :=
  let en := groupActive bits
  [(x, 507, (displayGroupOn en).bitmap), (x, 348, (displayGroupOff en).bitmap),
   (x, 123, (displayGroupCustom en).bitmap),
   (x, 573, (displayGroupRadio en (decide (bits = 7))).bitmap),
   (x, 414, (displayGroupRadio en (decide (bits = 0 ∨ bits = 1))).bitmap),
   (x, 253, (displayGroupRadio en (decide (bits = 4 ∨ bits = 5))).bitmap)]

theorem cloakBlitGroup_shows (bits x : Word) :
    Shows (cloakBlitGroup env info bits x) (groupBlits bits x) := by
  intro s w u s' h
  obtain ⟨w₁, en, s₁, w₂, h₁, h₂, rfl⟩ := Code.runs_bind.mp h
  rw [cloakIsGroupEnabled, Code.runs_require_bind, Code.runs_pure] at h₁
  obtain ⟨-, rfl, rfl, rfl⟩ := h₁
  have himages : Shows (do
      fbBlitImage env info x 507 (displayGroupOn (groupActive bits))
      fbBlitImage env info x 348 (displayGroupOff (groupActive bits))
      fbBlitImage env info x 123 (displayGroupCustom (groupActive bits))
      fbBlitImage env info x 573 (displayGroupRadio (groupActive bits) (decide (bits = 7)))
      fbBlitImage env info x 414 (displayGroupRadio (groupActive bits) (decide (bits = 0 ∨ bits = 1)))
      fbBlitImage env info x 253
        (displayGroupRadio (groupActive bits) (decide (bits = 4 ∨ bits = 5)))) (groupBlits bits x) := by
    apply fbBlitImage_bind_shows
    apply fbBlitImage_bind_shows
    apply fbBlitImage_bind_shows
    apply fbBlitImage_bind_shows
    apply fbBlitImage_bind_shows
    exact fbBlitImage_shows _ _ _
  exact himages h₂

/-- The radio buttons of the modes. -/
def modeBlits (a1 : Word) : List (Word × Word × Bitmap) :=
  let mode := a1 &&& 0x3
  [(148, 693, (displayMode (decide (mode = 0))).bitmap),
   (148, 534, (displayMode (decide (mode = 1))).bitmap),
   (148, 372, (displayMode (decide (mode = 2))).bitmap),
   (148, 213, (displayMode (decide (mode = 3))).bitmap)]

/-- A group of the dialog: the position of its bits, where it is drawn, and its classes. -/
structure CloakGroup where
  shift : Nat
  x : Word
  classes : List CloakClass

/-- NETWORK, MULTIMEDIA and SENSOR (`settings.h:9-11`); each is drawn above its classes. -/
def cloakGroups : List CloakGroup :=
  [⟨2, 230, cloakClasses.take 3⟩, ⟨11, 502, (cloakClasses.drop 3).take 3⟩,
   ⟨20, 776, cloakClasses.drop 6⟩]

/-- The three bits of a group in the settings. -/
def CloakGroup.bits (g : CloakGroup) (a1 : Word) : Word := (a1 >>> g.shift) &&& 0x7

/-- The screen for some settings. -/
def screenBlits (a1 : Word) : List (Word × Word × Bitmap) :=
  displayStatic.map (fun b => (b.x, b.y, b.image.bitmap)) ++
    (cloakClasses.flatMap (·.blits a1) ++
      (cloakGroups.flatMap (fun g => groupBlits (g.bits a1) g.x) ++ modeBlits a1))

theorem cloakBlitRest_shows (a1 : Word) : Shows (cloakBlitRest env info a1)
    (cloakGroups.flatMap (fun g => groupBlits (g.bits a1) g.x) ++ modeBlits a1) := by
  change Shows _ (groupBlits ((a1 >>> 2) &&& 0x7) 230 ++ (groupBlits ((a1 >>> 11) &&& 0x7) 502 ++
    (groupBlits ((a1 >>> 20) &&& 0x7) 776 ++ modeBlits a1)))
  refine shows_bind (cloakBlitGroup_shows _ 230) fun _ => ?_
  refine shows_bind (cloakBlitGroup_shows _ 502) fun _ => ?_
  refine shows_bind (cloakBlitGroup_shows _ 776) fun _ => ?_
  apply fbBlitImage_bind_shows
  apply fbBlitImage_bind_shows
  apply fbBlitImage_bind_shows
  exact fbBlitImage_shows _ _ _

/-- The dialog draws the screen and nothing else. -/
theorem cloakDialog_shows (t : DeviceTable) (presses : List Word) (a1 : Word) :
    Shows (cloakDialog env t presses info a1) (screenBlits a1) := by
  refine shows_bind (shows_forEach (fun _ => fbBlitImage_shows _ _ _) _) fun _ => ?_
  refine shows_bind (cloakBlitClasses_shows a1 _) fun classes => ?_
  have hanswer : Code.Emits Event.NoBlit (do
      Code.modify fun s => { s with cloak := { s.cloak with confirmStatus := .none } }
      cloakWait presses
      cloakAnswered env t info a1 classes
      gpioKeysRelease .cloak) := by
    refine Code.emits_bind (Code.emits_modify _) fun _ => ?_
    refine Code.emits_bind cloakWait_emits fun _ => ?_
    refine Code.emits_bind ?_ fun _ => gpioKeysRelease_emits
    refine Code.emits_bind Code.emits_get fun _ => Code.emits_ite ?_ fbClear_noBlit
    refine Code.emits_bind (cloakApply_emits noBlit_prot) fun _ => ?_
    exact Code.emits_bind (Code.emits_modify _) fun _ => fbClear_noBlit
  have h := shows_bind (@cloakBlitRest_shows env info a1)
    fun _ => shows_of_emits hanswer
  rwa [List.append_nil] at h

theorem fbAcquire_noBlit {r g b : Byte} : Code.Emits Event.NoBlit (fbAcquire env r g b) := by
  refine Code.emits_bind Code.emits_get fun _ => ?_
  refine Code.emits_bind (emuAddRegion_emits noBlit_prot) fun _ => ?_
  refine Code.emits_bind (csuSetCsl_emits noBlit_prot) fun _ => ?_
  refine Code.emits_bind ?_ fun _ => ?_
  · exact Code.emits_bind Code.emits_get fun _ =>
      Code.emits_bind (Code.emits_require _) fun _ => Code.emits_pure _
  · refine Code.emits_bind fbClear_noBlit fun _ => ?_
    exact Code.emits_bind (Code.emits_forEach fun _ _ => modifyCpmem_emits)
      fun _ => Code.emits_pure _

/-- The images of a `CLOAK_SET` that returns are those of its screen. -/
theorem cloakEntrySet_shows {t : DeviceTable} {presses : List Word} {args res : SmcArgs}
    {s s' : Sys} {w : List Event} (hlock : s.cloak.lock = 0)
    (h : Code.Runs (cloakEntrySet env t presses args) s w res s') :
    blits w = screenBlits args.a1 := by
  obtain ⟨w₁, locked, s₁, v₁, h₁, k₁, rfl⟩ := Code.runs_bind.mp h
  obtain ⟨rfl, ⟨-, rfl, -⟩ | ⟨hheld, -, -⟩⟩ := cpuSpinTrylock_runs.mp h₁
  swap
  · exact absurd hlock hheld
  rw [if_pos rfl] at k₁
  obtain ⟨w₂, err, s₂, v₂, h₂, k₂, rfl⟩ := Code.runs_bind.mp k₁
  have hunlock : blits v₂ = [] := by
    refine shows_of_emits ?_ k₂
    refine Code.emits_bind ?_ fun _ => Code.emits_pure _
    exact Code.emits_bind (Code.emits_modify _) fun _ => kassert_emits
  obtain ⟨w₃, fb, s₃, v₃, h₃, k₃, rfl⟩ := Code.runs_bind.mp h₂
  obtain ⟨rfl, -⟩ := fbAcquire_stages h₃
  obtain ⟨w₄, ok, s₄, v₄, h₄, k₄, rfl⟩ := Code.runs_bind.mp k₃
  obtain ⟨rfl, -⟩ := gpioKeysAcquire_cloak h₄
  obtain ⟨w₅, _, s₅, v₅, h₅, k₅, rfl⟩ := Code.runs_bind.mp k₄
  rcases Code.runs_runIf.mp h₅ with ⟨-, h₅⟩ | ⟨hn, -, -⟩
  swap
  · exact absurd rfl hn
  have hrelease : blits v₅ = [] :=
    shows_of_emits (Code.emits_bind (fbRelease_emits noBlit_prot) fun _ => Code.emits_pure _) k₅
  simp only [blits_append, hunlock, hrelease, shows_of_emits fbAcquire_noBlit h₃,
    shows_of_emits gpioKeysAcquire_emits h₄, cloakDialog_shows _ _ _ h₅]
  simp [blits]

end Draw

/-! ## Calls -/

/-- The calls of `dt_enable_class` that apply the settings, in their order. -/
def cloakCalls (classes : List (CString × Bool)) : List (CString × Bool) :=
  classes.map (fun c => (c.1, true)) ++ classes.filter fun c => c.2 = false

theorem cloakApply_eq_calls (env : Env) (t : DeviceTable) (classes : List (CString × Bool)) :
    cloakApply env t classes =
      Code.forEach (fun p => dtEnableClass env t p.1 p.2) (cloakCalls classes) := by
  have hdisable : ∀ cs : List (CString × Bool),
      Code.forEach (fun c => Code.runIf (c.2 = false) (dtEnableClass env t c.1 false)) cs =
        Code.forEach (fun p => dtEnableClass env t p.1 p.2) (cs.filter fun c => c.2 = false) := by
    intro cs
    induction cs with
    | nil => rfl
    | cons c cs ih =>
      obtain ⟨name, allow⟩ := c
      cases allow with
      | true =>
        rw [Code.forEach, List.filter_cons_of_neg (by simp), ← ih]
        exact Code.pure_bind_eq () _
      | false =>
        rw [List.filter_cons_of_pos (by simp), Code.forEach, Code.forEach, ih]
        rfl
  rw [cloakCalls, Code.forEach_append, Code.forEach_map, cloakApply, hdisable]

/-- The settings disable exactly the classes whose upper bit is clear. -/
theorem mem_cloakCalls {a1 : Word} {c : CloakClass} (hc : c ∈ cloakClasses) :
    (c.name, false) ∈ cloakCalls (cloakVerdicts a1) ↔ c.allow a1 = false := by
  have hname : ∀ c ∈ cloakClasses, ∀ d ∈ cloakClasses, d.name = c.name → d.shift = c.shift := by
    decide +kernel
  unfold cloakCalls cloakVerdicts
  simp only [List.mem_append, List.mem_map, List.mem_filter, Prod.mk.injEq]
  constructor
  · rintro (⟨_, -, -, hfalse⟩ | ⟨⟨d, hd, heq, hallow⟩, -⟩)
    · cases hfalse
    · rw [← hallow]
      unfold CloakClass.allow CloakClass.bits
      rw [hname c hc d hd heq]
  · intro hoff
    exact Or.inr ⟨⟨c, hc, rfl, hoff⟩, by simp⟩

/-! ## Positions -/

/-- One image is drawn where the switch of a class is. -/
theorem switch_shown {a1 : Word} {c : CloakClass} (hc : c ∈ cloakClasses) {b : Bitmap} :
    (c.x, 0, b) ∈ screenBlits a1 ↔ b = (c.switches (c.bits a1)).bitmap := by
  simp only [cloakClasses, List.mem_cons, List.not_mem_nil, or_false] at hc
  rcases hc with rfl | rfl | rfl | rfl | rfl | rfl | rfl | rfl
  all_goals simp [screenBlits, displayStatic, cloakClasses, CloakClass.blits, cloakGroups, groupBlits,
    modeBlits]

/-- So it is where the radio buttons of a group for "on" and "off" are. -/
theorem radio_shown {a1 : Word} {g : CloakGroup} (hg : g ∈ cloakGroups) {b : Bitmap} :
    ((g.x, 573, b) ∈ screenBlits a1 ↔ b = (displayGroupRadio (groupActive (g.bits a1))
        (decide (g.bits a1 = 7))).bitmap) ∧
      ((g.x, 414, b) ∈ screenBlits a1 ↔ b = (displayGroupRadio (groupActive (g.bits a1))
        (decide (g.bits a1 = 0 ∨ g.bits a1 = 1))).bitmap) := by
  simp only [cloakGroups, List.mem_cons, List.not_mem_nil, or_false] at hg
  rcases hg with rfl | rfl | rfl
  all_goals
    simp [screenBlits, displayStatic, cloakClasses, CloakClass.blits, cloakGroups, CloakGroup.bits,
      groupBlits, modeBlits]
    exact ⟨Iff.rfl, Iff.rfl⟩

/-! ## Agreement -/

/-- The `*_off_*` images of a switch. -/
def Bitmap.isOffSwitch (b : Bitmap) : Bool :=
  b = .switchDisOffW || b = .switchEnOffW || b = .switchDisOff || b = .switchEnOff

/-- The `*_select` images of a radio button. -/
def Bitmap.isSelected (b : Bitmap) : Bool := b = .groupDisSelect || b = .groupEnSelect

theorem switches_isOff {c : CloakClass} (hc : c ∈ cloakClasses) (bits : Word) :
    (c.switches bits).bitmap.isOffSwitch = true ↔ bits = 0 ∨ bits = 2 := by
  have hblue : (displaySwitchesBlue bits).bitmap.isOffSwitch = true ↔ bits = 0 ∨ bits = 2 := by
    unfold displaySwitchesBlue
    split_ifs <;> simp_all [Bitmap.isOffSwitch]
  have hwhite : (displaySwitchesWhite bits).bitmap.isOffSwitch = true ↔ bits = 0 ∨ bits = 2 := by
    unfold displaySwitchesWhite
    split_ifs <;> simp_all [Bitmap.isOffSwitch]
  simp only [cloakClasses, List.mem_cons, List.not_mem_nil, or_false] at hc
  rcases hc with rfl | rfl | rfl | rfl | rfl | rfl | rfl | rfl
  all_goals assumption

theorem radio_isSelected (en selected : Bool) :
    (displayGroupRadio en selected).bitmap.isSelected = selected := by
  cases en <;> cases selected <;> rfl

/-- The values that the two bits of a class have. -/
theorem CloakClass.bits_cases (c : CloakClass) (a1 : Word) :
    c.bits a1 = 0 ∨ c.bits a1 = 1 ∨ c.bits a1 = 2 ∨ c.bits a1 = 3 := by
  have hlt : (c.bits a1).toNat < 4 := by
    unfold CloakClass.bits
    rw [BitVec.toNat_and]
    exact Nat.lt_of_le_of_lt Nat.and_le_right (by decide)
  bv_omega

theorem allow_iff (c : CloakClass) (a1 : Word) :
    c.allow a1 = false ↔ c.bits a1 = 0 ∨ c.bits a1 = 1 := by
  unfold CloakClass.allow
  rcases c.bits_cases a1 with h | h | h | h <;> rw [h] <;> decide

/-- Screen and policy agree: a class is disabled exactly if its switch is drawn off, and a group that
is drawn off or on has all of its classes off or on. -/
structure Agree (w : List Event) (calls : List (CString × Bool)) : Prop where
  switch : ∀ c ∈ cloakClasses,
    (c.name, false) ∈ calls ↔ ∃ b, .blit c.x 0 b ∈ w ∧ b.isOffSwitch = true
  off : ∀ g ∈ cloakGroups, (∃ b, .blit g.x 414 b ∈ w ∧ b.isSelected = true) →
    ∀ c ∈ g.classes, (c.name, false) ∈ calls
  on : ∀ g ∈ cloakGroups, (∃ b, .blit g.x 573 b ∈ w ∧ b.isSelected = true) →
    ∀ c ∈ g.classes, (c.name, false) ∉ calls

/-- Settings that say the same thing twice: both bits of a class are equal, and a group that is off or
on has the bits of its classes accordingly. -/
structure Consistent (a1 : Word) : Prop where
  switch : ∀ c ∈ cloakClasses, c.bits a1 = 0 ∨ c.bits a1 = 3
  off : ∀ g ∈ cloakGroups, g.bits a1 = 0 ∨ g.bits a1 = 1 → ∀ c ∈ g.classes, c.bits a1 = 0
  on : ∀ g ∈ cloakGroups, g.bits a1 = 7 → ∀ c ∈ g.classes, c.bits a1 = 3

theorem group_classes {g : CloakGroup} (hg : g ∈ cloakGroups) {c : CloakClass}
    (hc : c ∈ g.classes) : c ∈ cloakClasses := by
  simp only [cloakGroups, List.mem_cons, List.not_mem_nil, or_false] at hg
  rcases hg with rfl | rfl | rfl
  · exact List.mem_of_mem_take hc
  · exact List.mem_of_mem_drop (List.mem_of_mem_take hc)
  · exact List.mem_of_mem_drop hc

theorem agree_iff {w : List Event} {a1 : Word} (hw : blits w = screenBlits a1) :
    Agree w (cloakCalls (cloakVerdicts a1)) ↔ Consistent a1 := by
  have hswitch : ∀ c ∈ cloakClasses, (∃ b, .blit c.x 0 b ∈ w ∧ b.isOffSwitch = true) ↔
      c.bits a1 = 0 ∨ c.bits a1 = 2 := by
    intro c hc
    simp only [← mem_blits, hw, switch_shown hc, exists_eq_left, switches_isOff hc]
  have hon : ∀ g ∈ cloakGroups, (∃ b, .blit g.x 573 b ∈ w ∧ b.isSelected = true) ↔
      g.bits a1 = 7 := by
    intro g hg
    simp only [← mem_blits, hw, (radio_shown hg).1, exists_eq_left, radio_isSelected,
      decide_eq_true_eq]
  have hoff : ∀ g ∈ cloakGroups, (∃ b, .blit g.x 414 b ∈ w ∧ b.isSelected = true) ↔
      g.bits a1 = 0 ∨ g.bits a1 = 1 := by
    intro g hg
    simp only [← mem_blits, hw, (radio_shown hg).2, exists_eq_left, radio_isSelected,
      decide_eq_true_eq]
  have hcalls : ∀ c ∈ cloakClasses, (c.name, false) ∈ cloakCalls (cloakVerdicts a1) ↔
      c.bits a1 = 0 ∨ c.bits a1 = 1 := by
    intro c hc
    rw [mem_cloakCalls hc, allow_iff]
  constructor
  · intro h
    have heq : ∀ c ∈ cloakClasses, c.bits a1 = 0 ∨ c.bits a1 = 3 := by
      intro c hc
      have hagree := h.switch c hc
      rw [hcalls c hc, hswitch c hc] at hagree
      rcases c.bits_cases a1 with hb | hb | hb | hb <;> rw [hb] at hagree ⊢ <;> simp_all
    refine ⟨heq, fun g hg hbits c hc => ?_, fun g hg hbits c hc => ?_⟩
    · have hdis := h.off g hg ((hoff g hg).mpr hbits) c hc
      rw [hcalls c (group_classes hg hc)] at hdis
      rcases heq c (group_classes hg hc) with hb | hb
      · exact hb
      · rw [hb] at hdis
        simp at hdis
    · have hen := h.on g hg ((hon g hg).mpr hbits) c hc
      rw [hcalls c (group_classes hg hc)] at hen
      rcases heq c (group_classes hg hc) with hb | hb
      · exact absurd (Or.inl hb) hen
      · exact hb
  · intro h
    refine ⟨fun c hc => ?_, fun g hg hsel c hc => ?_, fun g hg hsel c hc => ?_⟩
    · rw [hcalls c hc, hswitch c hc]
      rcases h.switch c hc with hb | hb <;> rw [hb] <;> simp
    · rw [hcalls c (group_classes hg hc)]
      exact Or.inl (h.off g hg ((hoff g hg).mp hsel) c hc)
    · rw [hcalls c (group_classes hg hc), h.on g hg ((hon g hg).mp hsel) c hc]
      simp

/-- A confirmed `CLOAK_SET` applies its verdicts with calls of `dt_enable_class`, and these agree
with the screen that the user confirmed exactly if the settings are consistent. -/
theorem shown_iff_consistent {env : Env} {t : DeviceTable} {c : SmcCall} {s s' : Sys}
    {w : List Event} (hlock : s.cloak.lock = 0) (hconf : c.Confirmed)
    (h : Code.Runs (cloakEntry env t c.presses c.args) s w c.res s') :
    (∃ s₁ v s₂, Code.Runs (Code.forEach (fun p => dtEnableClass env t p.1 p.2)
        (cloakCalls (cloakVerdicts c.args.a1))) s₁ v () s₂ ∧
      s₁.enabled = s.enabled ∧ s'.enabled = s₂.enabled) ∧
    (Agree w (cloakCalls (cloakVerdicts c.args.a1)) ↔ Consistent c.args.a1) := by
  obtain ⟨hset, hallow⟩ := hconf
  constructor
  · obtain ⟨-, v, s₁, ⟨st⟩, rfl⟩ := smcStep_set hlock hset ⟨w, h⟩
    have happly := st.apply
    rw [if_pos hallow] at happly
    obtain ⟨sP, hrun, hsP⟩ := happly
    rw [cloakApply_eq_calls] at hrun
    refine ⟨_, _, sP, hrun, st.enabled_before, ?_⟩
    change s₁.enabled = sP.enabled
    rw [st.enabled_after, hsP]
  · rw [cloakEntry, if_pos hset] at h
    exact agree_iff (cloakEntrySet_shows hlock h)

theorem shown_iff_consistent_board :
    Board.cloakAll.Confirmed ∧
      (∃ s₁ v s₂, Code.Runs (Code.forEach (fun p => dtEnableClass imx6 Board.table p.1 p.2)
          (cloakCalls (cloakVerdicts Board.cloakAll.args.a1))) s₁ v () s₂ ∧
        s₁.enabled = (Board.booted imx6 0).enabled ∧ (Board.cloaked imx6).enabled = s₂.enabled) ∧
      (Agree (Board.cloakAll.log imx6 Board.table (Board.booted imx6 0))
        (cloakCalls (cloakVerdicts Board.cloakAll.args.a1)) ↔ Consistent Board.cloakAll.args.a1) :=
  ⟨Board.cloakAll_confirmed, shown_iff_consistent Board.booted_ok.lock Board.cloakAll_confirmed
    (runs_after_set Board.booted_ok.lock rfl rfl (by decide +kernel))⟩

/-- A group that is set by its classes, and a first class whose switch is active and off. -/
def Board.activeOff : SmcCall :=
  ⟨[keyHomepage], ⟨opteeSmcCloakSet, 0x54, 0, 0, 0, 0, 0, 0⟩,
    ⟨opteeSmcReturnOk, 0x54, 0, 0, 0, 0, 0, 0⟩⟩

/-- The user confirms a screen on which the switch of the radio is off, and the radio stays
enabled. -/
theorem shown_off_stays_enabled :
    Booted imx6 (Board.booted imx6 0) ∧ Board.activeOff.Confirmed ∧
      GroupsValid Board.activeOff.args.a1 ∧
      smcStep imx6 Board.table (Board.booted imx6 0) Board.activeOff
        (Board.activeOff.after imx6 Board.table (Board.booted imx6 0)) ∧
      .blit 294 0 .switchEnOff ∈ Board.activeOff.log imx6 Board.table (Board.booted imx6 0) ∧
      (ascii ['w', 'i', 'f', 'i'], false) ∉ cloakCalls (cloakVerdicts Board.activeOff.args.a1) ∧
      (Board.activeOff.after imx6 Board.table (Board.booted imx6 0)).enabled Board.wlan = true ∧
      ¬ Agree (Board.activeOff.log imx6 Board.table (Board.booted imx6 0))
        (cloakCalls (cloakVerdicts Board.activeOff.args.a1)) := by
  have hshown : .blit 294 0 .switchEnOff ∈
      Board.activeOff.log imx6 Board.table (Board.booted imx6 0) := by
    rw [← mem_blits]
    decide +kernel
  have hcalls : (ascii ['w', 'i', 'f', 'i'], false) ∉
      cloakCalls (cloakVerdicts Board.activeOff.args.a1) := by decide +kernel
  refine ⟨Board.booted_ok, ⟨rfl, rfl⟩, by decide, ⟨_, runs_after_set Board.booted_ok.lock rfl rfl
    (by decide +kernel)⟩, hshown, hcalls, by decide +kernel, fun hagree => ?_⟩
  have hwifi := hagree.switch _ List.mem_cons_self
  exact hcalls (hwifi.mpr ⟨.switchEnOff, hshown, rfl⟩)

end SeCloak
