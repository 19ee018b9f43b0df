import SeCloak.Drivers.Fdt
import SeCloak.Kernel.Boot
import SeCloak.Misc.Zoom

/-!
# Walking the device tree (`dt.c`)

`dt_probe` creates a device for each node, its interrupt controllers first, and calls the driver
that matches. The interrupts of a node are decoded by the chip that the driver of the controller
registered. The recursion and the loop over `interrupts-extended` get fuel: a run that needs more
than it has is a run that has not ended.
-/

namespace SeCloak
open Misc

/-! ## State -/

/-- The list `chips` of `interrupt.c:34`, in the order of a traversal, with `chip->dev`. A chip that
is inserted a second time makes the list circular. The chips that drivers were probed for, the last one
first, are only recorded. -/
structure ChipList where
  order : List ChipId := []
  cyclic : Bool := false
  dev : ChipId → Option Device := fun _ => none
  probed : List ChipId := []

/-- `SLIST_INSERT_HEAD`; the elements behind a chip that was in the list already are lost. -/
def ChipList.insertHead (l : ChipList) (c : ChipId) : ChipList :=
  if c ∈ l.order then { l with order := c :: l.order.takeWhile (· ≠ c), cyclic := true }
  else { l with order := c :: l.order }

/-- The kernel while it walks the tree. -/
structure Dt where
  sys : Sys
  table : DeviceTable := ⟨fun _ => []⟩
  chips : ChipList := {}

abbrev DtCode := Code Dt Event Fault

/-- Code that does not look at the tree. -/
def onSys {α : Type} (m : Kernel α) : DtCode α :=
  Code.zoom Dt.sys (fun d s => { d with sys := s }) m

/-- The drivers, in the order in which they are linked. -/
inductive Driver where
  | gic
  | gpc
  | fb
  | gpio (hwtype : HwType)
  | keys

/-- What the drivers find: the interrupts the GIC implements, the mapping and the registers of a
port, the mappings of the framebuffer, and what the nodes of the keys hold. -/
structure Hardware where
  maxIt : Nat
  gpioVaddr : Device → Option Word
  gpioRegs : Device → GpioRegs
  fbMapped : Bool
  fbCpmem : Option Word
  fbWords : Nat → Word
  keyNodes : Dt → Device → List KeyNode

/-- A heap that serves every size below `2 ^ 30`. -/
theorem heap_serves_lt (size : Nat) (h : 2 ^ 30 ≤ size) : decide (size < 2 ^ 30) = false :=
  decide_eq_false (Nat.not_lt.mpr h)

/-- What a walk depends on: the tree, the hardware, which sizes the heap can serve at all, and what
allocated memory holds. The memory of the kernel is far below `2 ^ 30` bytes. -/
structure Machine where
  env : Env
  fdt : Fdt
  hw : Hardware
  heap : Nat → Bool := fun size => decide (size < 2 ^ 30)
  stale : Resource := ⟨⟨0, 0, 0, 0⟩, ⟨0, 0, 0, 0⟩⟩
  heap_lt : ∀ size, 2 ^ 30 ≤ size → heap size = false := by exact heap_serves_lt

/-! ## Devices and chips -/

/-- `hash_32` (`dt.c:15-17`). -/
def hash32 (value : Word) (bits : Nat) : Nat := ((value * 0x61C88647) >>> (32 - bits)).toNat

/-- The bucket of a node. -/
def bucketOf (node : Int) : Nat := hash32 (BitVec.ofInt 32 node) 7

/-- `device_lookup` (`dt.c:32-43`). -/
def DeviceTable.lookup (t : DeviceTable) (node : Int) : Option Device :=
  (t.bucket (bucketOf node)).find? fun dev => dev.info.node = node

/-- `device_insert` (`dt.c:68-71`). -/
def DeviceTable.insert (t : DeviceTable) (dev : Device) : DeviceTable :=
  ⟨Function.update t.bucket (bucketOf dev.info.node) (dev :: t.bucket (bucketOf dev.info.node))⟩

def deviceLookup (node : Nat) : DtCode (Option Device) := do
  let s ← Code.get
  pure (s.table.lookup node)

def deviceInsert (dev : Device) : DtCode Unit :=
  Code.modify fun s => { s with table := s.table.insert dev }

/-- `irq_find_chip` (`interrupt.c:58-67`). -/
def irqFindChip (dev : Device) : DtCode (Option ChipId) := do
  let s ← Code.get
  match s.chips.order.find? fun c => s.chips.dev c = some dev with
  | some c => pure (some c)
  | none => if s.chips.cyclic then Code.throw .waiting else pure none

/-! ## Parsing a node -/

/-- `malloc` and `realloc` of a computed size. -/
def Machine.malloc (m : Machine) (size : Int) : DtCode Bool := do
  let ok ← onSys (SeCloak.malloc m.env)
  pure (ok && m.heap (BitVec.ofInt 32 size).toNat)

/-- An array of cells in memory that was not cleared, with the first `n` of them filled. -/
def Cells.fill (stale : Cells) (n : Int) (f : Nat → Word) : Cells where
  c0 := if 0 < n then f 0 else stale.c0
  c1 := if 1 < n then f 1 else stale.c1
  c2 := if 2 < n then f 2 else stale.c2
  c3 := if 3 < n then f 3 else stale.c3

/-- The body of the loop of `dt_parse_resources` (`dt.c:122-129`). -/
def FdtProp.resource (reg : FdtProp) (stale : Resource) (addrCells sizeCells : Int) (r : Nat) :
    Resource :=
  let start := r * (addrCells + sizeCells)
  { address := stale.address.fill addrCells fun a => reg.cell (BitVec.ofInt 32 (start + a))
    size := stale.size.fill sizeCells fun c =>
      reg.cell (BitVec.ofInt 32 (start + addrCells + c)) }

/-- `dt_parse_resources` (`dt.c:107-133`); `none` is a failure. -/
def dtParseResources (m : Machine) (node : Nat) (parent : Option Device) :
    DtCode (Option (List Resource)) :=
  match m.fdt.getprop node "reg" with
  | none => pure (some [])
  | some reg =>
    match parent with
    | none => Code.throw .undefined
    | some parent => do
      let addrCells := m.fdt.addressCells parent.info.node.toNat
      let sizeCells := m.fdt.sizeCells parent.info.node.toNat
      let numResources := (reg.len : Int).tdiv (4 * (addrCells + sizeCells))
      let ok ← m.malloc (32 * numResources)
      if ok = false then pure none
      else
        pure (some ((List.range numResources.toNat).map
          (reg.resource m.stale addrCells sizeCells)))

/-- `irq_map` (`interrupt.c:105-107`) of the cells from the index on; what it returns is ignored
(`dt.c:182` and `dt.c:255`). -/
def FdtProp.irqInfo (irqs : FdtProp) (chip : ChipId) (index : Word) : IrqInfo :=
  let (irq, flags) := irqMap chip (irqs.cell index) (irqs.cell (index + 1)) (irqs.cell (index + 2))
  ⟨⟨chip, irq⟩, flags⟩

/-- The device of a controller, probed if there is none yet (`dt.c:150-157` and `dt.c:222-225`). -/
def deviceFor (probe : Nat → DtCode (Option Device)) (offset : Nat) : DtCode (Option Device) := do
  match ← deviceLookup offset with
  | some dev => pure (some dev)
  | none => probe offset

/-- A `#interrupt-cells` property with its one cell (`dt.c:165-171` and `dt.c:216-220`). -/
def Fdt.interruptCells (fdt : Fdt) (node : Nat) : Option Word :=
  match fdt.getprop node "#interrupt-cells" with
  | some p => if p.len = 4 then some (p.cell 0) else none
  | none => none

/-- The loop of `dt_parse_interrupts_ext` (`dt.c:141-186`) from `index` on. -/
def parseExtended (m : Machine) (probe : Nat → DtCode (Option Device)) (irqs : FdtProp) :
    Nat → Word → List IrqInfo → DtCode (Option (List IrqInfo))
  | 0, _, _ => Code.throw .waiting
  | fuel + 1, index, infos =>
    if index.slt (BitVec.ofNat 32 (irqs.len / 4)) then
      match m.fdt.nodeOffsetByPhandle (irqs.cell index) with
      | none => pure none
      | some chipOffset => do
        match ← deviceFor probe chipOffset with
        | none => pure none
        | some chipDev => do
          match ← irqFindChip chipDev with
          | none => pure none
          | some chip =>
            match m.fdt.interruptCells chipOffset with
            | none => pure none
            | some numIrqCells => do
              let ok ← m.malloc (12 * (infos.length + 1))
              if ok = false then pure none
              else
                parseExtended m probe irqs fuel (index + 1 + numIrqCells)
                  (infos ++ [irqs.irqInfo chip (index + 1)])
    else do
      onSys (kassert m.env (index = BitVec.ofNat 32 (irqs.len / 4)))
      pure (some infos)

/-- `dt_parse_interrupts_ext` (`dt.c:135-192`) after the interrupts that were parsed before. -/
def dtParseInterruptsExt (m : Machine) (probe : Nat → DtCode (Option Device)) (fuel node : Nat)
    (infos : List IrqInfo) : DtCode (Option (List IrqInfo)) :=
  match m.fdt.getprop node "interrupts-extended" with
  | none => pure (some infos)
  | some irqs => parseExtended m probe irqs fuel 0 infos

/-- The property that `dt_parse_interrupts` parses (`dt.c:196-199`). -/
def Fdt.interrupts (fdt : Fdt) (node : Nat) : Option FdtProp :=
  match fdt.getprop node "sp-interrupts" with
  | some irqs => some irqs
  | none => fdt.getprop node "interrupts"

/-- The first `interrupt-parent` on the way up (`dt.c:206-209` and `dt.c:228-230`). -/
def Fdt.interruptParent (fdt : Fdt) : List Nat → Option Word
  | [] => none
  | node :: nodes =>
    match fdt.getprop node "interrupt-parent" with
    | some p => if p.len = 4 then some (p.cell 0) else fdt.interruptParent nodes
    | none => fdt.interruptParent nodes

/-- The node and its ancestors. -/
def nodesFrom (node : Nat) (parent : Option Device) : List Nat :=
  node :: (parent.elim [] Device.ancestors).map fun dev => dev.info.node.toNat

/-- `dt_parse_interrupts` (`dt.c:194-261`). -/
def dtParseInterrupts (m : Machine) (probe : Nat → DtCode (Option Device)) (fuel node : Nat)
    (parent : Option Device) : DtCode (Option (List IrqInfo)) :=
  match m.fdt.interrupts node with
  | none => dtParseInterruptsExt m probe fuel node []
  | some irqs =>
    match m.fdt.interruptParent (nodesFrom node parent) with
    | none => pure none
    | some phandle =>
      match m.fdt.nodeOffsetByPhandle phandle with
      | none => pure none
      | some irqParent =>
        match m.fdt.interruptCells irqParent with
        | none => pure none
        | some numIrqCells => do
          match ← deviceFor probe irqParent with
          | none => pure none
          | some chipDev => do
            match ← irqFindChip chipDev with
            | none => pure none
            | some chip => do
              Code.require (4 * numIrqCells ≠ 0) .undefined
              let numIrqs := (irqs.len : Int).tdiv (4 * numIrqCells).toInt
              let ok ← m.malloc (12 * numIrqs)
              if ok = false then pure none
              else
                dtParseInterruptsExt m probe fuel node ((List.range numIrqs.toNat).map
                  fun i => irqs.irqInfo chip (numIrqCells * BitVec.ofNat 32 i))

/-- `dt_parse_sp_csu` (`dt.c:263-280`). -/
def dtParseSpCsu (m : Machine) (node : Nat) : DtCode (Option (List Int)) :=
  match m.fdt.getprop node "sp-csu" with
  | none => pure (some [])
  | some spCsu => do
    let ok ← m.malloc (4 * (spCsu.len / 4 : Nat))
    if ok = false then pure none
    else
      pure (some ((List.range (spCsu.len / 4)).map fun c =>
        (spCsu.cell (BitVec.ofNat 32 c)).toInt))

/-- `strnlen`, of all the bytes there are. -/
def strnlen (list : List Byte) : Nat := (list.takeWhile (· ≠ 0)).length

/-- The loop of `fdt_stringlist_count` (`dt.c:93-102`), for a list of at most `fuel` bytes. -/
def stringlistCountFrom : Nat → List Byte → Int → Int
  | 0, _, count => count
  | fuel + 1, list, count =>
    if list = [] then count
    else
      let length := strnlen list + 1
      if length > list.length then -1
      else stringlistCountFrom fuel (list.drop length) (count + 1)

/-- `fdt_stringlist_count` (`dt.c:82-105`) of a property that exists. -/
def fdtStringlistCount (list : List Byte) : Int := stringlistCountFrom list.length list 0

/-- `strlen` from a pointer into the property; a scan that leaves the property is not followed. -/
def strlen (list : List Byte) : Option Nat :=
  if strnlen list < list.length then some (strnlen list) else none

/-- The loop of `dt_parse_sp_class` (`dt.c:293-296`): the pointers, relative to the property. -/
def classPtrs (spClass : List Byte) : Nat → Nat → Option (List Nat)
  | 0, _ => some []
  | n + 1, ptr =>
    match strlen (spClass.drop ptr) with
    | none => none
    | some length => (classPtrs spClass n (ptr + length + 1)).map (ptr :: ·)

/-- The string at a pointer into the property. -/
def stringAt (spClass : List Byte) (ptr : Nat) : CString := (spClass.drop ptr).takeWhile (· ≠ 0)

/-- `dt_parse_sp_class` (`dt.c:282-300`): the recorded pointers, relative to the property. -/
def dtParseSpClass (m : Machine) (node : Nat) : DtCode (Option (List Nat)) :=
  match m.fdt.getprop node "sp-class" with
  | none => pure (some [])
  | some spClass => do
    let numClasses := fdtStringlistCount spClass.value
    let ok ← m.malloc (4 * numClasses)
    if ok = false then pure none
    else
      match classPtrs spClass.value numClasses.toNat 0 with
      | none => Code.throw .undefined
      | some ptrs => pure (some ptrs)

/-- The strings that the recorded pointers lead to. -/
def Fdt.classes (fdt : Fdt) (node : Nat) (ptrs : List Nat) : List CString :=
  match fdt.getprop node "sp-class" with
  | none => []
  | some spClass => ptrs.map (stringAt spClass.value)

/-! ## Devices -/

/-- A device is the root or has a parent. -/
def deviceOf (info : DeviceInfo) : Option Device → Device
  | none => .root info
  | some parent => .child info parent

/-- The fields of a device (`dt.c:315-328`), with what the parsers found. -/
def Machine.deviceInfo (m : Machine) (node : Nat) (parent : Option Device)
    (resources : List Resource) (irqs : List IrqInfo) (csu : List Int) (ptrs : List Nat) :
    DeviceInfo where
  node := node
  phandle := m.fdt.phandle node
  resourceType := if parent.any (·.info.isSimpleBus) then .mem else .other
  resources := resources
  irqs := irqs
  csu := csu
  classes := m.fdt.classes node ptrs
  isSimpleBus := m.fdt.simpleBus node

/-- The part of `device_create` after the check of the node (`dt.c:308-341`). -/
def deviceParse (m : Machine) (probe : Nat → DtCode (Option Device)) (fuel node : Nat)
    (parent : Option Device) : DtCode Device := do
  let ok ← onSys (SeCloak.malloc m.env)
  Code.require (ok = true) .panic
  let resources ← dtParseResources m node parent
  let irqs ← dtParseInterrupts m probe fuel node parent
  let csu ← dtParseSpCsu m node
  let classes ← dtParseSpClass m node
  match resources, irqs, csu, classes with
  | some resources, some irqs, some csu, some ptrs =>
    pure (deviceOf (m.deviceInfo node parent resources irqs csu ptrs) parent)
  | _, _, _, _ => Code.throw .panic

/-- `device_create` (`dt.c:302-342`). -/
def deviceCreate (m : Machine) (probe : Nat → DtCode (Option Device)) (fuel node : Nat)
    (parent : Option Device) (strict : Bool) : DtCode (Option Device) :=
  if strict = true ∧ (m.fdt.getprop node "compatible" = none ∨ m.fdt.disabled node = true) then
    pure none
  else do
    let dev ← deviceParse m probe fuel node parent
    pure (some dev)

/-! ## Drivers -/

/-- The match tables (`gic.c:262-266`, `imx_fb.c:229-232`, `imx_gpio.c:651-657` and
`imx_gpio_keys.c:214-217`). -/
def matchTable : List (CString × Driver) :=
  [(ascii ['a', 'r', 'm', ',', 'c', 'o', 'r', 't', 'e', 'x', '-', 'a', '9', '-', 'g', 'i', 'c'],
      .gic),
   (ascii ['f', 's', 'l', ',', 'i', 'm', 'x', '6', 'q', '-', 'g', 'p', 'c'], .gpc),
   (ascii ['f', 's', 'l', ',', 'i', 'm', 'x', '6', 'q', '-', 'i', 'p', 'u'], .fb),
   (ascii ['f', 's', 'l', ',', 'i', 'm', 'x', '1', '-', 'g', 'p', 'i', 'o'], .gpio .imx1),
   (ascii ['f', 's', 'l', ',', 'i', 'm', 'x', '2', '1', '-', 'g', 'p', 'i', 'o'], .gpio .imx21),
   (ascii ['f', 's', 'l', ',', 'i', 'm', 'x', '3', '1', '-', 'g', 'p', 'i', 'o'], .gpio .imx31),
   (ascii ['f', 's', 'l', ',', 'i', 'm', 'x', '3', '5', '-', 'g', 'p', 'i', 'o'], .gpio .imx35),
   (ascii ['g', 'p', 'i', 'o', '-', 'k', 'e', 'y', 's'], .keys)]

/-- The first driver that matches a node. -/
def Fdt.driver (fdt : Fdt) (node : Nat) : Option Driver :=
  (matchTable.find? fun entry => fdt.compatible node entry.1).map (·.2)

/-- The call of `driver->probe`. -/
def Driver.probe (hw : Hardware) (s : Dt) (dev : Device) : Driver → Probe
  | .gic => .gic dev hw.maxIt
  | .gpc => .gpc
  | .fb => .fb dev hw.fbMapped hw.fbCpmem hw.fbWords
  | .gpio hwtype => .gpio dev hwtype (hw.gpioVaddr dev) (hw.gpioRegs dev)
  | .keys => .keys (hw.keyNodes s dev)

/-- The chip that a driver constructs for the device, if it gets that far. -/
def Driver.chip (s : Sys) (dev : Device) : Driver → Option ChipId
  | .gic =>
    if dev.info.resources.length ≠ 2 ∨ dev.info.resourceType ≠ .mem then none else some .gic
  | .gpc => some .gpc
  | .gpio _ => some (.gpio s.gpio.allocated)
  | .fb | .keys => none

/-- The list after `irq_construct_chip` (`interrupt.c:36-52`), which inserts a chip that has its
table. -/
def ChipList.construct (l : ChipList) (dev : Device) (c : ChipId) (hasTable : Bool) : ChipList :=
  let l := { l with dev := Function.update l.dev c (some dev), probed := c :: l.probed }
  if hasTable then l.insertHead c else l

/-- `dt_probe_compatible_driver` (`core/kernel/dt.c:52-66`). -/
def dtProbeCompatibleDriver (m : Machine) (node : Nat) (dev : Device) : DtCode Unit :=
  match m.fdt.driver node with
  | none => pure ()
  | some driver => do
    let s ← Code.get
    let _ ← onSys ((driver.probe m.hw s dev).run m.env)
    Code.modify fun s' =>
      match driver.chip s.sys dev with
      | none => s'
      | some c => { s' with chips := s'.chips.construct dev c (s'.sys.chip c).handlers.isSome }

/-! ## The walk -/

/-- The parent of a node, probed if there is none yet (`dt.c:345-356`): NULL for the root, and
`none` if it could not be probed. -/
def parentFor (m : Machine) (probe : Nat → DtCode (Option Device)) (offset : Nat) :
    DtCode (Option (Option Device)) :=
  match m.fdt.parentOffset offset with
  | none => pure (some none)
  | some parentOffset => do
    let parent ← deviceFor probe parentOffset
    pure (parent.map some)

/-- The device of a node, created and given to its driver if there is none yet
(`dt.c:358-367`). -/
def deviceProbed (m : Machine) (probe : Nat → DtCode (Option Device)) (fuel offset : Nat)
    (parent : Option Device) : DtCode (Option Device) := do
  match ← deviceLookup offset with
  | some dev => pure (some dev)
  | none => do
    match ← deviceCreate m probe fuel offset parent true with
    | none => pure none
    | some dev => do
      deviceInsert dev
      dtProbeCompatibleDriver m offset dev
      pure (some dev)

/-- `dt_probe_device` (`dt.c:344-377`). -/
def dtProbeDevice (m : Machine) : Nat → Nat → Option Device → Bool → DtCode (Option Device)
  | 0, _, _, _ => Code.throw .waiting
  | fuel + 1, offset, parent, probeChildren => do
    let probe (offset : Nat) := dtProbeDevice m fuel offset none false
    let known ← match parent with
      | some parent => pure (some (some parent))
      | none => parentFor m probe offset
    match known with
    | none => pure none
    | some parent => do
      match ← deviceProbed m probe fuel offset parent with
      | none => pure none
      | some dev => do
        Code.runIf (probeChildren = true) (Code.forEach (fun child => do
          let _ ← dtProbeDevice m fuel child (some dev) true
          pure ()) (m.fdt.subnodes offset))
        pure (some dev)

/-- `root_device->is_simple_bus = true` (`dt.c:491`). -/
def Device.simpleBus : Device → Device
  | .root i => .root { i with isSimpleBus := true }
  | .child i p => .child { i with isSimpleBus := true } p

/-- `dt_probe` (`dt.c:472-500`). -/
def dtProbeTree (m : Machine) (fuel : Nat) : DtCode Unit := do
  Code.modify fun s => { s with table := ⟨fun _ => []⟩ }
  match m.fdt.root with
  | none => Code.throw .panic
  | some root => do
    match ← deviceCreate m (fun offset => dtProbeDevice m fuel offset none false) fuel root none
      false with
    | none => Code.throw .panic
    | some dev => do
      deviceInsert dev.simpleBus
      Code.forEach (fun child => do
        let _ ← dtProbeDevice m fuel child (some dev.simpleBus) true
        pure ()) (m.fdt.subnodes root)

end SeCloak
