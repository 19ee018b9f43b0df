import SeCloak.Misc.Faults

/-!
# The data of the kernel

The structures of the headers and the static variables of the drivers, gathered into one
record `Sys`. Each peripheral keeps its own register block: the SoC decodes every physical
address to one peripheral, so blocks of different peripherals are separate values here, and
only the emulator, which takes its addresses from the non-secure world, decodes addresses.
Trace output (`IMSG`, `DMSG`, `EMSG`) has no effect on this state and is left out.
-/

namespace SeCloak
open Misc

abbrev Word := BitVec 32
abbrev Byte := BitVec 8

/-- A C string without its terminating NUL. -/
abbrev CString := List Byte

def ascii (cs : List Char) : CString := cs.map fun c => BitVec.ofNat 8 c.toNat

/-! ## `kernel/interrupt.h` -/

/-- The `irq_chip` objects of the kernel: `g_gic.chip`, `g_gic.chip_gpc`, and the chip that
is embedded in each GPIO port. -/
inductive ChipId where
  | gic
  | gpc
  | gpio (port : Nat)
  deriving DecidableEq

/-- `struct irq_desc` (`interrupt.h:75-78`). -/
structure IrqDesc where
  chip : ChipId
  irq : Nat
  deriving DecidableEq

/-- The `irq_handler` objects: two for each GPIO port and one for each key. -/
inductive Handler where
  | port (n : Nat)
  | portHigh (n : Nat)
  | button (b : Nat)
  deriving DecidableEq

/-- `struct irq_chip` (`interrupt.h:65-73`). A chip that was never constructed is zeroed: it
has no valid interrupt and its handler table is NULL. -/
structure IrqChip where
  numIrqs : Nat := 0
  defaultHandler : Bool := false
  handlers : Option (Nat → Option Handler) := none

/-! ## `drivers/dt.h` -/

/-- `struct irq_info` (`dt.h:23-26`). -/
structure IrqInfo where
  desc : IrqDesc
  flags : Word
  deriving DecidableEq

/-- `enum resource_type` (`dt.h:13-16`). -/
inductive ResourceType where
  | mem
  | other
  deriving DecidableEq

/-- An array of `FDT_MAX_NCELLS` cells. -/
structure Cells where
  c0 : Word
  c1 : Word := 0
  c2 : Word := 0
  c3 : Word := 0
  deriving DecidableEq

/-- `struct resource` (`dt.h:18-21`). -/
structure Resource where
  address : Cells
  size : Cells
  deriving DecidableEq

/-- The fields of `struct device` (`dt.h:28-48`) that are fixed once `device_create` returns.
The counts `num_irqs`, `num_csu`, ... are the lengths of the lists. -/
structure DeviceInfo where
  node : Int
  phandle : Word := 0
  resourceType : ResourceType
  resources : List Resource := []
  irqs : List IrqInfo := []
  csu : List Int := []
  classes : List CString := []
  isSimpleBus : Bool := false
  deriving DecidableEq

/-- A device with its ancestors. A device is created after its parent, so `parent` pointers
end at the root; the `enabled` flag, which changes, is kept in `Sys`. -/
inductive Device where
  | root (info : DeviceInfo)
  | child (info : DeviceInfo) (parent : Device)
  deriving DecidableEq

namespace Device

def info : Device → DeviceInfo
  | .root i => i
  | .child i _ => i

/-- `can_protect` of `dt_enable_device` (`dt.c:385`). -/
def canProtect (d : Device) : Bool :=
  decide (0 < d.info.csu.length) && decide (d.info.resourceType = .mem)

end Device

/-! ## `secloak/emulation.h` -/

/-- `enum emu_state` (`emulation.h:10-14`). -/
inductive EmuState where
  | write
  | readBefore
  | readAfter
  deriving DecidableEq

/-- The functions of type `emu_check_t` in the kernel; the code compares them as pointers. -/
inductive EmuCheck where
  | allowAll
  | denyAll
  | gpio
  | fb
  deriving DecidableEq

/-- `struct region` (`emulation.h:19-24`). -/
structure Region where
  base : Word
  size : Word
  check : EmuCheck
  deriving DecidableEq

/-! ## Register blocks and driver data -/

/-- `imx_csu.c:11-12` and the CSU registers it writes: `csl n` is the register that holds the
fields of the CSL numbers `2 * n` and `2 * n + 1`. -/
structure Csu where
  counts : Nat → Int := fun _ => 0
  csl : Nat → Word
  sa : Word

/-- The GIC distributor: one enable and one pending bit per interrupt behind the set and
clear registers, byte-wide priorities, four targets to a word. -/
structure Gic where
  igroupr : Nat → Word
  isenabler : Nat → Word
  ispendr : Nat → Word
  ipriorityr : Nat → Byte
  itargetsr : Nat → Word

/-- `enum mxc_gpio_hwtype` (`imx_gpio.c:42-47`). -/
inductive HwType where
  | imx1
  | imx21
  | imx31
  | imx35
  deriving DecidableEq

/-- `struct mxc_gpio_hwdata` (`imx_gpio.c:49-62`). -/
structure HwData where
  drReg : Word
  gdirReg : Word
  psrReg : Word
  icr1Reg : Word
  icr2Reg : Word
  imrReg : Word
  isrReg : Word
  edgeSelReg : Int
  lowLevel : Word
  highLevel : Word
  riseEdge : Word
  fallEdge : Word

/-- The registers of one GPIO port. -/
structure GpioRegs where
  dr : Word := 0
  gdir : Word := 0
  psr : Word := 0
  icr1 : Word := 0
  icr2 : Word := 0
  imr : Word := 0
  isr : Word := 0
  edgeSel : Word := 0
  deriving DecidableEq

/-- `struct mxc_gpio_port` (`imx_gpio.c:84-100`) with the registers it maps. `imr_previous`
and `secure_irq_mask` are never used and left out. -/
structure Port where
  dev : Device
  pbase : Word
  base : Word
  irq : IrqDesc
  irqHigh : Option IrqDesc
  irqPass : IrqDesc
  bothEdges : Word := 0
  secureMask : Word := 0
  passedIrqMask : Word := 0
  regs : GpioRegs := {}

/-- `imx_gpio.c:146-148`: `port n` is the `n`-th port allocated, `ports` the list
`mxc_gpio_ports` with its head first, `hwtype` the variant in use. -/
structure Gpio where
  hwtype : Option HwType := none
  allocated : Nat := 0
  ports : List Nat := []
  port : Nat → Option Port := fun _ => none

/-- The two `button_handler` objects (`entry.c:183`, `imx_gpio_keys.c:142`). -/
inductive ButtonHandler where
  | cloak
  | secpwr
  deriving DecidableEq

/-- `struct gpio_keys_button` (`imx_gpio_keys.c:33-39`); `chip` is NULL until it is parsed. -/
structure KeysButton where
  code : Word := 0
  chip : Option ChipId := none
  irq : Nat := 0
  flags : Word := 0
  deriving DecidableEq

/-- `struct gpio_keys_platform_data` (`imx_gpio_keys.c:41-48`); `buttons` is NULL when its
allocation failed. -/
structure KeysData where
  nbuttons : Nat
  buttons : Option (List KeysButton)
  handlers : List ButtonHandler := []
  deriving DecidableEq

/-- `enum secpwr_state` (`imx_gpio_keys.c:97-102`). -/
inductive SecpwrState where
  | state0
  | state1
  | state2
  | state3
  deriving DecidableEq

/-- `imx_fb.c:33-35`, the CPMEM words and the bytes of the secure framebuffer. -/
structure Fb where
  basePaddr : Word := 0
  cpmemVaddr : Option Word := none
  cpmem : Nat → Word
  mem : Nat → Byte

/-- `struct fb_info` (`imx_fb.h:7-14`), with the number of bytes of the memory that `buffer` points to. -/
structure FbInfo where
  buffer : Option Word
  room : Nat
  width : Word
  height : Word
  stride : Word
  prevParamsCh0 : Nat → Word
  prevParamsCh1 : Nat → Word

/-- `CLOAK_CONFIRM_*` (`entry.c:161-163`). -/
inductive Confirm where
  | none
  | allow
  | deny
  deriving DecidableEq

/-- `entry.c:165-188`. -/
structure Cloak where
  lock : Word := 0
  prevSettings : Word := 0
  confirmStatus : Confirm := .none

/-- The whole state of the kernel and the hardware it drives. -/
structure Sys where
  /-- the `enabled` field of every device -/
  enabled : Device → Bool
  csu : Csu
  regions : List Region
  gic : Gic
  chip : ChipId → IrqChip
  gpio : Gpio
  keys : Option KeysData
  secpwr : SecpwrState
  fb : Fb
  cloak : Cloak
  /-- number of allocations since boot -/
  allocs : Nat
  /-- all other physical memory -/
  mem : Word → Byte

/-! ## Events, faults and the build -/

/-- The bitmaps of `image_headers.h`, which `tiles/array.sh` generates. -/
inductive Bitmap where
  | header | bluerect | footer | groupNetworking | groupMultimedia | groupSensor
  | modeNone | modeAirplane | modeMovie | modeStealth
  | bt | camera | cellular | gps | mic | sensor | speaker | wifi
  | switchDisOffW | switchDisOnW | switchEnOffW | switchEnOnW
  | switchDisOff | switchDisOn | switchEnOff | switchEnOn
  | iconNowifi | iconWifi | iconNobt | iconBt | iconNocamera | iconCamera
  | iconNocellular | iconCellular | iconNospeaker | iconSpeaker | iconNomic | iconMic
  | iconNogps | iconGps | iconNosensor | iconSensor
  | groupDisOn | groupEnOn | groupDisOff | groupEnOff | groupDisCustom | groupEnCustom
  | groupDisDeselect | groupDisSelect | groupEnDeselect | groupEnSelect
  | modeDeselect | modeSelect
  deriving DecidableEq

/-- A memory access of `size` bytes, by its virtual and its physical address. -/
structure Access where
  va : Word
  pa : Word
  size : Nat
  deriving DecidableEq

/-- What a run leaves in its log: the state after each `csu_set_csl`, `emu_add_region` and
`emu_remove_region`, the bitmaps drawn, the physical address of each byte that drawing writes, and
the memory accesses of the emulator. -/
inductive Event where
  | prot (after : Sys)
  | blit (x y : Word) (image : Bitmap)
  | pixel (paddr : Nat)
  | fetch (a : Access)
  | read (a : Access)
  | write (a : Access) (value : Word)

/-- The states after the steps of a run that change what is protected. -/
def protStates (w : List Event) : List Sys :=
  w.filterMap fun e => match e with
    | .prot s => some s
    | _ => none

@[simp] theorem protStates_nil : protStates [] = [] := rfl

@[simp] theorem protStates_prot (s : Sys) (w : List Event) :
    protStates (.prot s :: w) = s :: protStates w := rfl

@[simp] theorem protStates_append (w w' : List Event) :
    protStates (w ++ w') = protStates w ++ protStates w' := List.filterMap_append

theorem mem_protStates {w : List Event} {s : Sys} : s ∈ protStates w ↔ .prot s ∈ w := by
  unfold protStates
  rw [List.mem_filterMap]
  constructor
  · rintro ⟨e, he, hs⟩
    cases e with
    | prot u => exact Option.some.inj hs ▸ he
    | _ => cases hs
  · intro h
    exact ⟨.prot s, h, rfl⟩

/-- The ways a run of the kernel can stop. `undefined` is an access through NULL or outside
of an array; `waiting` is a run that is still in the loop that waits for a key. -/
inductive Fault where
  | panic
  | assertion
  | undefined
  | waiting
  deriving DecidableEq

/-- A range of physical memory with the virtual address of its start. -/
structure Window where
  pstart : Word
  vstart : Word
  size : Word
  deriving DecidableEq

/-- What the code depends on and does not compute: whether asserts are compiled in
(`CFG_TEE_CORE_DEBUG`), which allocations succeed, where the framebuffer is mapped, the pixels
of the generated bitmaps, the two windows that `emulation_init` takes from the memory map, and
the physical address of the interrupt distributor. -/
structure Env where
  asserts : Bool
  malloc : Nat → Bool
  fbVaddr : Option Word
  pixels : Bitmap → Nat → Byte
  data : Window
  instr : Window
  gicd : Word

/-- Code of the kernel. -/
abbrev Kernel := Code Sys Event Fault

/-- `assert` (`assert.h:37-48`): nothing when `NDEBUG` is defined, else a panic. -/
def kassert (env : Env) (p : Prop) [Decidable p] : Kernel Unit :=
  if env.asserts = true ∧ ¬ p then Code.throw .assertion else pure ()

/-- `malloc`: the answer for the next allocation. -/
def malloc (env : Env) : Kernel Bool := do
  let s ← Code.get
  Code.modify fun s => { s with allocs := s.allocs + 1 }
  pure (env.malloc s.allocs)

/-- Log the state after a step that changes what is protected. -/
def logProt : Kernel Unit := Code.emit .prot

theorem runs_kassert {env : Env} {p : Prop} [Decidable p] {s s' : Sys} {w : List Event} {u : Unit} :
    Code.Runs (kassert env p) s w u s' ↔ w = [] ∧ s' = s ∧ (env.asserts = true → p) := by
  unfold kassert
  by_cases h : env.asserts = true ∧ ¬ p
  · simp [h]
  · rw [if_neg h, Code.runs_pure]
    have hp : env.asserts = true → p := fun ha => by_contra fun hp => h ⟨ha, hp⟩
    constructor
    · rintro ⟨hw, -, hs⟩
      exact ⟨hw, hs, hp⟩
    · rintro ⟨hw, hs, -⟩
      exact ⟨hw, rfl, hs⟩

@[simp] theorem runs_kassert_bind {env : Env} {p : Prop} [Decidable p] {α : Type}
    {f : Unit → Kernel α} {s s' : Sys} {w : List Event} {a : α} :
    Code.Runs (kassert env p >>= f) s w a s' ↔
      (env.asserts = true → p) ∧ Code.Runs (f ()) s w a s' := by
  rw [Code.runs_bind]
  constructor
  · rintro ⟨_, _, _, _, h₁, h₂, rfl⟩
    obtain ⟨rfl, rfl, hp⟩ := runs_kassert.mp h₁
    exact ⟨hp, h₂⟩
  · rintro ⟨hp, h⟩
    exact ⟨[], (), s, w, runs_kassert.mpr ⟨rfl, rfl, hp⟩, h, rfl⟩

@[simp] theorem runs_malloc_bind {env : Env} {α : Type} {f : Bool → Kernel α} {s s' : Sys}
    {w : List Event} {a : α} : Code.Runs (malloc env >>= f) s w a s' ↔
      Code.Runs (f (env.malloc s.allocs)) { s with allocs := s.allocs + 1 } w a s' := by
  have h : ∀ {w ok s'}, Code.Runs (malloc env) s w ok s' ↔
      w = [] ∧ ok = env.malloc s.allocs ∧ s' = { s with allocs := s.allocs + 1 } := by
    intro w ok s'
    simp [malloc]
  rw [Code.runs_bind]
  constructor
  · rintro ⟨_, _, _, _, h₁, h₂, rfl⟩
    obtain ⟨rfl, rfl, rfl⟩ := h.mp h₁
    exact h₂
  · intro h₂
    exact ⟨[], _, _, w, h.mpr ⟨rfl, rfl, rfl⟩, h₂, rfl⟩

@[simp] theorem runs_logProt {s s' : Sys} {w : List Event} {u : Unit} :
    Code.Runs logProt s w u s' ↔ w = [.prot s] ∧ s' = s := Code.runs_emit

@[simp] theorem stops_kassert_bind {env : Env} {p : Prop} [Decidable p] {α : Type}
    {f : Unit → Kernel α} {s : Sys} {w : List Event} {e : Fault} :
    Code.Stops (kassert env p >>= f) s w e ↔
      (env.asserts = true ∧ ¬ p ∧ w = [] ∧ e = .assertion) ∨
        ((env.asserts = true → p) ∧ Code.Stops (f ()) s w e) := by
  unfold kassert
  by_cases ha : env.asserts = true ∧ ¬ p
  · rw [if_pos ha, Code.stops_bind, Code.stops_throw]
    simp [ha]
  · rw [if_neg ha, Code.stops_pure_bind]
    have hp : env.asserts = true → p := fun h => by_contra fun hp => ha ⟨h, hp⟩
    constructor
    · intro h
      exact Or.inr ⟨hp, h⟩
    · rintro (⟨h, hnot, -⟩ | ⟨-, h⟩)
      · exact absurd (hp h) hnot
      · exact h

@[simp] theorem stops_malloc_bind {env : Env} {α : Type} {f : Bool → Kernel α} {s : Sys}
    {w : List Event} {e : Fault} : Code.Stops (malloc env >>= f) s w e ↔
      Code.Stops (f (env.malloc s.allocs)) { s with allocs := s.allocs + 1 } w e := by
  rw [malloc, Code.bind_assoc_eq, Code.stops_get_bind, Code.bind_assoc_eq, Code.stops_modify_bind,
    Code.stops_pure_bind]

@[simp] theorem stops_logProt {s : Sys} {w : List Event} {e : Fault} :
    ¬ Code.Stops logProt s w e := Code.stops_emit

/-- `errno.h`. -/
def enomem : Int := -12
def enodev : Int := -19
def einval : Int := -22

end SeCloak
