import SeCloak.Drivers.FbProps

/-!
# The confirmation screen (`entry.c:23-159`)

The tables of bitmaps, and the functions that draw the switch of a class and the radio buttons of
a group from the bits of the settings.
-/

namespace SeCloak
open Misc

/-! ## Tables -/

/-- `display_static` (`entry.c:23-42`). -/
def displayStatic : List Blit :=
  [⟨0, 0, ⟨.header, 128, 800⟩⟩, ⟨148, 0, ⟨.bluerect, 64, 800⟩⟩, ⟨1051, 80, ⟨.footer, 128, 640⟩⟩,
   ⟨230, 608, ⟨.groupNetworking, 64, 192⟩⟩, ⟨502, 608, ⟨.groupMultimedia, 64, 192⟩⟩,
   ⟨776, 608, ⟨.groupSensor, 64, 192⟩⟩, ⟨148, 593, ⟨.modeNone, 64, 96⟩⟩,
   ⟨148, 402, ⟨.modeAirplane, 64, 128⟩⟩, ⟨148, 272, ⟨.modeMovie, 64, 96⟩⟩,
   ⟨148, 113, ⟨.modeStealth, 64, 96⟩⟩, ⟨358, 192, ⟨.bt, 64, 416⟩⟩, ⟨566, 192, ⟨.camera, 64, 416⟩⟩,
   ⟨422, 192, ⟨.cellular, 64, 416⟩⟩, ⟨840, 192, ⟨.gps, 64, 416⟩⟩, ⟨694, 192, ⟨.mic, 64, 416⟩⟩,
   ⟨904, 192, ⟨.sensor, 64, 416⟩⟩, ⟨630, 192, ⟨.speaker, 64, 416⟩⟩, ⟨294, 192, ⟨.wifi, 64, 416⟩⟩]

/-- `display_switches_white` (`entry.c:44-49`). -/
def displaySwitchesWhite (bits : Word) : Image :=
  ⟨if bits = 0 then .switchDisOffW else if bits = 1 then .switchDisOnW
    else if bits = 2 then .switchEnOffW else .switchEnOnW, 64, 192⟩

/-- `display_switches_blue` (`entry.c:51-56`). -/
def displaySwitchesBlue (bits : Word) : Image :=
  ⟨if bits = 0 then .switchDisOff else if bits = 1 then .switchDisOn
    else if bits = 2 then .switchEnOff else .switchEnOn, 64, 192⟩

/-- The tables of two icons (`entry.c:58-96`), the second of which is drawn. -/
def displayIcons (off on : Bitmap) (i : Bool) : Image := ⟨if i then on else off, 64, 192⟩
def displayIconsWifi : Bool → Image := displayIcons .iconNowifi .iconWifi
def displayIconsBt : Bool → Image := displayIcons .iconNobt .iconBt
def displayIconsCamera : Bool → Image := displayIcons .iconNocamera .iconCamera
def displayIconsCellular : Bool → Image := displayIcons .iconNocellular .iconCellular
def displayIconsSpeaker : Bool → Image := displayIcons .iconNospeaker .iconSpeaker
def displayIconsMic : Bool → Image := displayIcons .iconNomic .iconMic
def displayIconsGps : Bool → Image := displayIcons .iconNogps .iconGps
def displayIconsSensor : Bool → Image := displayIcons .iconNosensor .iconSensor

/-- `entry.c:98-124`. -/
def displayGroupOn (en : Bool) : Image := ⟨if en then .groupEnOn else .groupDisOn, 64, 64⟩
def displayGroupOff (en : Bool) : Image := ⟨if en then .groupEnOff else .groupDisOff, 64, 64⟩
def displayGroupCustom (en : Bool) : Image :=
  ⟨if en then .groupEnCustom else .groupDisCustom, 64, 128⟩
def displayGroupRadio (en selected : Bool) : Image :=
  ⟨if en then (if selected then .groupEnSelect else .groupEnDeselect)
    else if selected then .groupDisSelect else .groupDisDeselect, 64, 32⟩
def displayMode (selected : Bool) : Image :=
  ⟨if selected then .modeSelect else .modeDeselect, 64, 32⟩

/-! ## Drawing -/

/-- `cloak_blit_device` (`entry.c:126-131`): whether the class is allowed. -/
def cloakBlitDevice (env : Env) (fb : FbInfo) (bits x : Word) (switches : Word → Image)
    (icons : Bool → Image) : Kernel Bool := do
  fbBlitImage env fb x 0 (switches bits)
  fbBlitImage env fb x 608 (icons true)
  pure (decide (bits &&& 0x2 ≠ 0))

/-- `cloak_is_group_enabled` (`entry.c:133-146`); other values panic. -/
def cloakIsGroupEnabled (group : Word) : Kernel Bool := do
  Code.require (group = 0 ∨ group = 4 ∨ group = 1 ∨ group = 7 ∨ group = 5) .panic
  pure (decide (group = 1 ∨ group = 7 ∨ group = 5))

/-- `cloak_blit_group` (`entry.c:148-159`). -/
def cloakBlitGroup (env : Env) (fb : FbInfo) (bits x : Word) : Kernel Unit := do
  let isEnabled ← cloakIsGroupEnabled bits
  fbBlitImage env fb x 507 (displayGroupOn isEnabled)
  fbBlitImage env fb x 348 (displayGroupOff isEnabled)
  fbBlitImage env fb x 123 (displayGroupCustom isEnabled)
  let isOn := decide (bits = 7)
  let isOff := decide (bits = 0 ∨ bits = 1)
  let isCustom := decide (bits = 4 ∨ bits = 5)
  fbBlitImage env fb x 573 (displayGroupRadio isEnabled isOn)
  fbBlitImage env fb x 414 (displayGroupRadio isEnabled isOff)
  fbBlitImage env fb x 253 (displayGroupRadio isEnabled isCustom)

/-! ## Classes -/

/-- A class of the dialog: its name, the position of its two bits, and how it is drawn. -/
structure CloakClass where
  name : CString
  shift : Nat
  x : Word
  switches : Word → Image
  icons : Bool → Image

/-- The eight classes of `cloak_entry_set` (`entry.c:223-232`) with the shifts of
`settings.h:20-27`. -/
def cloakClasses : List CloakClass :=
  [⟨ascii ['w', 'i', 'f', 'i'], 5, 294, displaySwitchesBlue, displayIconsWifi⟩,
   ⟨ascii ['b', 'l', 'u', 'e', 't', 'o', 'o', 't', 'h'], 7, 358, displaySwitchesWhite,
     displayIconsBt⟩,
   ⟨ascii ['c', 'e', 'l', 'l', 'u', 'l', 'a', 'r'], 9, 422, displaySwitchesBlue,
     displayIconsCellular⟩,
   ⟨ascii ['c', 'a', 'm', 'e', 'r', 'a'], 14, 566, displaySwitchesBlue, displayIconsCamera⟩,
   ⟨ascii ['a', 'u', 'd', 'i', 'o', '-', 'o', 'u', 't'], 16, 630, displaySwitchesWhite,
     displayIconsSpeaker⟩,
   ⟨ascii ['a', 'u', 'd', 'i', 'o', '-', 'i', 'n'], 18, 694, displaySwitchesBlue, displayIconsMic⟩,
   ⟨ascii ['g', 'p', 's'], 23, 840, displaySwitchesBlue, displayIconsGps⟩,
   ⟨ascii ['i', 'n', 'e', 'r', 't', 'i', 'a', 'l'], 25, 904, displaySwitchesWhite,
     displayIconsSensor⟩]

/-- The two bits of a class in the settings. -/
def CloakClass.bits (c : CloakClass) (a1 : Word) : Word := (a1 >>> c.shift) &&& 0x3

/-- The settings allow the class. -/
def CloakClass.allow (c : CloakClass) (a1 : Word) : Bool := decide (c.bits a1 &&& 0x2 ≠ 0)

/-- Draw the switches (`entry.c:223-232`); the answers fill the array `classes`. -/
def cloakBlitClasses (env : Env) (fb : FbInfo) (a1 : Word) :
    List CloakClass → Kernel (List (CString × Bool))
  | [] => pure []
  | c :: cs => do
    let allow ← cloakBlitDevice env fb (c.bits a1) c.x c.switches c.icons
    let rest ← cloakBlitClasses env fb a1 cs
    pure ((c.name, allow) :: rest)

/-- Draw groups and modes (`entry.c:235-244`). -/
def cloakBlitRest (env : Env) (fb : FbInfo) (a1 : Word) : Kernel Unit := do
  cloakBlitGroup env fb ((a1 >>> 2) &&& 0x7) 230
  cloakBlitGroup env fb ((a1 >>> 11) &&& 0x7) 502
  cloakBlitGroup env fb ((a1 >>> 20) &&& 0x7) 776
  let mode := a1 &&& 0x3
  fbBlitImage env fb 148 693 (displayMode (decide (mode = 0)))
  fbBlitImage env fb 148 534 (displayMode (decide (mode = 1)))
  fbBlitImage env fb 148 372 (displayMode (decide (mode = 2)))
  fbBlitImage env fb 148 213 (displayMode (decide (mode = 3)))

/-! ## Frame -/

theorem cloakBlitDevice_paintOnly (env : Env) (fb : FbInfo) (bits x : Word)
    (switches : Word → Image) (icons : Bool → Image) :
    Code.Within (cloakBlitDevice env fb bits x switches icons) PaintOnly := by
  refine Code.within_bind paintOnly_closed (fbBlitImage_paintOnly _ _ _ _ _) fun _ => ?_
  refine Code.within_bind paintOnly_closed (fbBlitImage_paintOnly _ _ _ _ _) fun _ => ?_
  exact Code.within_pure paintOnly_closed _

theorem cloakBlitGroup_paintOnly (env : Env) (fb : FbInfo) (bits x : Word) :
    Code.Within (cloakBlitGroup env fb bits x) PaintOnly := by
  refine Code.within_bind paintOnly_closed ?_ fun en => ?_
  · refine Code.within_bind paintOnly_closed (Code.within_require paintOnly_closed _) fun _ => ?_
    exact Code.within_pure paintOnly_closed _
  · refine Code.within_bind paintOnly_closed (fbBlitImage_paintOnly _ _ _ _ _) fun _ => ?_
    refine Code.within_bind paintOnly_closed (fbBlitImage_paintOnly _ _ _ _ _) fun _ => ?_
    refine Code.within_bind paintOnly_closed (fbBlitImage_paintOnly _ _ _ _ _) fun _ => ?_
    refine Code.within_bind paintOnly_closed (fbBlitImage_paintOnly _ _ _ _ _) fun _ => ?_
    refine Code.within_bind paintOnly_closed (fbBlitImage_paintOnly _ _ _ _ _) fun _ => ?_
    exact fbBlitImage_paintOnly _ _ _ _ _

theorem cloakBlitRest_paintOnly (env : Env) (fb : FbInfo) (a1 : Word) :
    Code.Within (cloakBlitRest env fb a1) PaintOnly := by
  refine Code.within_bind paintOnly_closed (cloakBlitGroup_paintOnly _ _ _ _) fun _ => ?_
  refine Code.within_bind paintOnly_closed (cloakBlitGroup_paintOnly _ _ _ _) fun _ => ?_
  refine Code.within_bind paintOnly_closed (cloakBlitGroup_paintOnly _ _ _ _) fun _ => ?_
  refine Code.within_bind paintOnly_closed (fbBlitImage_paintOnly _ _ _ _ _) fun _ => ?_
  refine Code.within_bind paintOnly_closed (fbBlitImage_paintOnly _ _ _ _ _) fun _ => ?_
  refine Code.within_bind paintOnly_closed (fbBlitImage_paintOnly _ _ _ _ _) fun _ => ?_
  exact fbBlitImage_paintOnly _ _ _ _ _

/-- The classes drawn are the ones asked for, each with the verdict of its bits. -/
theorem cloakBlitClasses_runs {env : Env} {fb : FbInfo} {a1 : Word} {cs : List CloakClass}
    {res : List (CString × Bool)} {s s' : Sys} {w : List Event}
    (h : Code.Runs (cloakBlitClasses env fb a1 cs) s w res s') :
    res = cs.map (fun c => (c.name, c.allow a1)) ∧ PaintOnly s w s' := by
  induction cs generalizing s w res with
  | nil =>
    obtain ⟨rfl, rfl, rfl⟩ := Code.runs_pure.mp h
    exact ⟨rfl, paintOnly_closed.nil _⟩
  | cons c cs ih =>
    obtain ⟨w₁, allow, s₁, v₁, h₁, k₁, rfl⟩ := Code.runs_bind.mp h
    obtain ⟨w₂, rest, s₂, v₂, h₂, k₂, rfl⟩ := Code.runs_bind.mp k₁
    obtain ⟨rfl, rfl, rfl⟩ := Code.runs_pure.mp k₂
    have hdraw := cloakBlitDevice_paintOnly _ _ _ _ _ _ h₁
    obtain ⟨_, _, _, _, -, k₃, -⟩ := Code.runs_bind.mp h₁
    obtain ⟨_, _, _, _, -, k₄, -⟩ := Code.runs_bind.mp k₃
    obtain ⟨-, rfl, -⟩ := Code.runs_pure.mp k₄
    obtain ⟨rfl, hdraw'⟩ := ih h₂
    refine ⟨rfl, ?_⟩
    rw [List.append_nil]
    exact paintOnly_closed.append hdraw hdraw'

end SeCloak
