import SeCloak.Mm.VaSpace

/-!
# The translation tables (`core_mmu_v7.c`)

The memory map becomes a first level table of sections and pointers to second level tables of small
pages. `walk` is the lookup that the hardware does in them.
-/

namespace SeCloak
open Misc

/-! ## Descriptors -/

/-- `SECTION_*` and `SMALL_PAGE_*` (`core_mmu_v7.c:88-135`). -/
def sectionNotsecure : Word := 1 <<< 19
def sectionShared : Word := 1 <<< 16
def sectionNotglobal : Word := 1 <<< 17
def sectionAccessFlag : Word := 1 <<< 10
def sectionUnpriv : Word := 1 <<< 11
def sectionRo : Word := 1 <<< 15
def sectionXn : Word := 1 <<< 4
def sectionPxn : Word := 1 <<< 0
def sectionSection : Word := 2 <<< 0
def sectionPtNotsecure : Word := 1 <<< 3
def sectionPtPt : Word := 1 <<< 0
def smallPageSmallPage : Word := 1 <<< 1
def smallPageShared : Word := 1 <<< 10
def smallPageNotglobal : Word := 1 <<< 11
def smallPageAccessFlag : Word := 1 <<< 4
def smallPageUnpriv : Word := 1 <<< 5
def smallPageRo : Word := 1 <<< 9
def smallPageXn : Word := 1 <<< 0

def sectionTexcb (texcb : Word) : Word :=
  ((texcb >>> 2) <<< 12) ||| (((texcb >>> 1) &&& 1) <<< 3) ||| ((texcb &&& 1) <<< 2)

def smallPageTexcb (texcb : Word) : Word :=
  ((texcb >>> 2) <<< 6) ||| (((texcb >>> 1) &&& 1) <<< 3) ||| ((texcb &&& 1) <<< 2)

/-- The masks `SECTION_MASK`, `SMALL_PAGE_MASK` and `~SECTION_PT_ATTR_MASK`. -/
def sectionMask : Word := 0xFFFFF
def smallPageMask : Word := 0xFFF
def tableMask : Word := 0x3FF

/-- The configuration of the tables: `CFG_NO_SMP` is not set, `CFG_HWSUPP_MEM_PERM_PXN`, and the
address of `main_mmu_l2_ttb`, eight tables of 1024 bytes. -/
structure XlatCfg where
  smp : Bool
  pxn : Bool
  l2Ttb : Word
  aligned : l2Ttb.toNat % 1024 = 0
  fits : l2Ttb.toNat + 8 * 1024 ≤ 2 ^ 32

inductive DescType where
  | pageTable
  | section
  | superSection
  | largePage
  | smallPage
  | invalid
  deriving DecidableEq

/-- `get_desc_type` for the two levels (`core_mmu_v7.c:249-271`). -/
def getDescType1 (desc : Word) : DescType :=
  if desc &&& 3 = 1 then .pageTable
  else if desc &&& 2 = 2 then if desc &&& (1 <<< 18) ≠ 0 then .superSection else .section
  else .invalid

def getDescType2 (desc : Word) : DescType :=
  if desc &&& 3 = 1 then .largePage
  else if desc &&& 2 = 2 then .smallPage
  else .invalid

/-- `mattr_to_texcb` (`core_mmu_v7.c:281-285`). -/
def mattrToTexcb (attr : Word) : Word := (attr >>> 12) &&& 7

/-- The permissions that others imply (`core_mmu_v7.c:366-373`). -/
def impliedMattr (a : Word) : Word :=
  let a := if a &&& (mattrPx ||| mattrPw) ≠ 0 then a ||| mattrPr else a
  let a := if a &&& (mattrUx ||| mattrUw) ≠ 0 then a ||| mattrUr else a
  let a := if a &&& mattrUr ≠ 0 then a ||| mattrPr else a
  if a &&& mattrUw ≠ 0 then a ||| mattrPw else a

/-- A flag of a descriptor. -/
def descFlag (c : Prop) [Decidable c] (flag : Word) : Word := if c then flag else 0

/-- `mattr_to_desc` for the first level (`core_mmu_v7.c:343-409`). -/
def mattrToDesc1 (cfg : XlatCfg) (attr : Word) : Word :=
  if attr &&& mattrHiddenBlock ≠ 0 then 4
  else if attr &&& mattrHiddenDirtyBlock ≠ 0 then 8
  else if attr &&& mattrTable ≠ 0 then
    sectionPtPt ||| descFlag (attr &&& mattrSecure = 0) sectionPtNotsecure
  else if attr &&& mattrValidBlock = 0 then 0
  else
    let a := impliedMattr attr
    sectionSection ||| descFlag cfg.smp sectionShared |||
      descFlag (a &&& (mattrPx ||| mattrUx) = 0) sectionXn |||
      descFlag (cfg.pxn ∧ a &&& mattrPx = 0) sectionPxn |||
      descFlag (a &&& mattrUr ≠ 0) sectionUnpriv |||
      descFlag (a &&& mattrPw = 0) sectionRo |||
      descFlag (a &&& (mattrUr ||| mattrPr) ≠ 0) sectionAccessFlag |||
      descFlag (a &&& mattrGlobal = 0) sectionNotglobal |||
      descFlag (a &&& mattrSecure = 0) sectionNotsecure ||| sectionTexcb (mattrToTexcb a)

/-- `mattr_to_desc` for the second level (`core_mmu_v7.c:343-357,410-435`). -/
def mattrToDesc2 (cfg : XlatCfg) (attr : Word) : Word :=
  if attr &&& mattrHiddenBlock ≠ 0 then 4
  else if attr &&& mattrHiddenDirtyBlock ≠ 0 then 8
  else if attr &&& mattrValidBlock = 0 then 0
  else
    let a := impliedMattr attr
    smallPageSmallPage ||| descFlag cfg.smp smallPageShared |||
      descFlag (a &&& (mattrPx ||| mattrUx) = 0) smallPageXn |||
      descFlag (a &&& mattrUr ≠ 0) smallPageUnpriv |||
      descFlag (a &&& mattrPw = 0) smallPageRo |||
      descFlag (a &&& (mattrUr ||| mattrPr) ≠ 0) smallPageAccessFlag |||
      descFlag (a &&& mattrGlobal = 0) smallPageNotglobal ||| smallPageTexcb (mattrToTexcb a)

/-! ## Tables -/

/-- `main_mmu_l1_ttb`, `main_mmu_l2_ttb` and `tables_used`. The content of a second level table is
random until it is allocated. -/
structure XlatTables where
  l1 : Nat → Word
  l2 : Nat → Nat → Word
  used : Nat

namespace XlatTables

def setL1 (st : XlatTables) (idx : Nat) (desc : Word) : XlatTables :=
  { st with l1 := Function.update st.l1 idx desc }

def setL2 (st : XlatTables) (k pg : Nat) (desc : Word) : XlatTables :=
  { st with l2 := Function.update st.l2 k (Function.update (st.l2 k) pg desc) }

@[simp] theorem setL1_l1_self (st : XlatTables) (idx : Nat) (desc : Word) :
    (st.setL1 idx desc).l1 idx = desc := Function.update_self _ _ _

theorem setL1_l1_of_ne (st : XlatTables) {idx i : Nat} (desc : Word) (h : i ≠ idx) :
    (st.setL1 idx desc).l1 i = st.l1 i := Function.update_of_ne h _ _

@[simp] theorem setL2_l2_self (st : XlatTables) (k pg : Nat) (desc : Word) :
    (st.setL2 k pg desc).l2 k pg = desc := by
  unfold setL2
  dsimp only
  rw [Function.update_self, Function.update_self]

theorem setL2_l2_of_ne (st : XlatTables) (k : Nat) {pg p : Nat} (desc : Word) (h : p ≠ pg) :
    (st.setL2 k pg desc).l2 k p = st.l2 k p := by
  unfold setL2
  dsimp only
  rw [Function.update_self, Function.update_of_ne h]

theorem setL2_l2_other (st : XlatTables) {k j : Nat} (pg : Nat) (desc : Word) (h : j ≠ k) :
    (st.setL2 k pg desc).l2 j = st.l2 j := Function.update_of_ne h _ _

end XlatTables

/-- `MAX_XLAT_TABLES`, `NUM_L1_ENTRIES` and `NUM_UL1_ENTRIES`. -/
def maxXlatTables : Nat := 8
def numL1Entries : Nat := 4096
def numUl1Entries : Nat := 32

/-- The address of a second level table. -/
def XlatCfg.l2Addr (cfg : XlatCfg) (k : Nat) : Word := cfg.l2Ttb + BitVec.ofNat 32 (k * 1024)

/-- The second level table at an address. -/
def XlatCfg.tableAt (cfg : XlatCfg) (pa : Word) : Option Nat :=
  (List.range maxXlatTables).find? fun k => cfg.l2Addr k = pa

/-- `core_mmu_alloc_l2` (`core_mmu_v7.c:232-247`). -/
def coreMmuAllocL2 (size : Word) (st : XlatTables) : Option (Nat × XlatTables) :=
  let toAlloc := (roundUp size 0x100000).toNat / 0x100000
  if maxXlatTables < st.used + toAlloc then none
  else some (st.used,
    { st with l2 := fun k pg => if st.used ≤ k ∧ k < st.used + toAlloc then 0 else st.l2 k pg
              used := st.used + toAlloc })

/-! ## Finding entries -/

/-- `pa_is_in_map` (`core_mmu.c:127-132`). -/
def MmapRegion.paIsIn (r : MmapRegion) (pa : Word) : Bool := r.pa ≤ pa && pa ≤ r.pa + r.size - 1

/-- `find_map_by_type_and_pa` (`core_mmu.c:158-172`). -/
def findMapByTypeAndPa (map : List MmapRegion) (type : MemType) (pa : Word) : Option MmapRegion :=
  map.find? fun r => r.type = type && r.paIsIn pa

/-- `map_pa2va` (`core_mmu.c:755-761`); zero is `NULL`. -/
def mapPa2va (r : Option MmapRegion) (pa : Word) : Word :=
  match r with
  | none => 0
  | some r => if r.paIsIn pa then r.va + pa - r.pa else 0

/-- `phys_to_virt_tee_ram` (`core_mmu.c:985-999`). -/
def physToVirtTeeRam (map : List MmapRegion) (pa : Word) : Word :=
  let mmap := findMapByTypeAndPa map .teeRam pa
  let mmap := mmap.orElse fun _ => findMapByTypeAndPa map .teeRamRw pa
  let mmap := mmap.orElse fun _ => findMapByTypeAndPa map .teeRamRo pa
  let mmap := mmap.orElse fun _ => findMapByTypeAndPa map .teeRamRx pa
  mapPa2va mmap pa

/-! ## Mapping -/

/-- The assertion before an entry is written: a mapped entry may not change to another mapping. -/
def mayWrite (attr old new : Word) : Prop := attr = 0 ∨ old = 0 ∨ old = new

instance (attr old new : Word) : Decidable (mayWrite attr old new) :=
  inferInstanceAs (Decidable (_ ∨ _))

/-- The loop of `map_page_memarea` for the `n` pages from `pg` on; the pages of an area are in one
section, so `pg` stays below 256. -/
def mapPages (mm : MmapRegion) (attr : Word) (k : Nat) :
    Nat → Nat → XlatTables → Except Fault XlatTables
  | 0, _, st => .ok st
  | n + 1, pg, st =>
    let desc := if attr ≠ 0 then
      attr ||| ((mm.pa &&& ~~~sectionMask) + BitVec.ofNat 32 (pg * 4096)) else attr
    if mayWrite desc (st.l2 k pg) desc then mapPages mm attr k n (pg + 1) (st.setL2 k pg desc)
    else .error .assertion

/-- `map_page_memarea` (`core_mmu_v7.c:563-602`), with the table's physical address as the result. The
MMU is off: `virt_to_phys` of a table is its address. A value of `xlat` that leads to no second level
table is a section. The assertion of the caller fails for it. -/
def mapPageMemarea (cfg : XlatCfg) (map : List MmapRegion) (mm : MmapRegion) (xlat : Word)
    (st : XlatTables) : Except Fault (Word × XlatTables) := do
  let l2 := if xlat = 0 then coreMmuAllocL2 mm.size st
    else (cfg.tableAt (physToVirtTeeRam map (xlat &&& ~~~tableMask))).map fun k => (k, st)
  match l2 with
  | none => .error .assertion
  | some (k, st) =>
    let start := mm.va &&& sectionMask
    let pgIdx := (start >>> 12).toNat
    let pages := ((mm.size + start).toNat + 4095) / 4096 - pgIdx
    let st ← mapPages mm (mattrToDesc2 cfg mm.attr) k pages pgIdx st
    .ok (cfg.l2Addr k, st)

/-- The loop that enters `n` descriptors into the first level table. -/
def setSections (attr : Word) : Nat → Nat → Word → XlatTables → Except Fault XlatTables
  | 0, _, _, st => .ok st
  | n + 1, idx, pa, st =>
    if numL1Entries ≤ idx then .error .undefined
    else if mayWrite attr (st.l1 idx) (pa ||| attr) then
      setSections attr n (idx + 1) (pa + pgdirSize) (st.setL1 idx (pa ||| attr))
    else .error .assertion

/-- The number of sections of an area. -/
def numSections (size : Word) : Nat := (roundUp size pgdirSize >>> 20).toNat

/-- `map_page_memarea_in_pgdirs` (`core_mmu_v7.c:604-630`). -/
def mapPageMemareaInPgdirs (cfg : XlatCfg) (map : List MmapRegion) (mm : MmapRegion)
    (st : XlatTables) : Except Fault XlatTables :=
  let idx := (mm.va >>> 20).toNat
  if mm.size = 0 then .ok st
  else if mm.attr &&& mattrValidBlock ≠ 0 then do
    let (pa, st) ← mapPageMemarea cfg map mm (st.l1 idx) st
    setSections (mattrToDesc1 cfg (mm.attr ||| mattrTable)) (numSections mm.size) idx pa st
  else setSections 0 (numSections mm.size) idx 0 st

/-- `map_memarea_sections` (`core_mmu_v7.c:632-658`). -/
def mapMemareaSections (cfg : XlatCfg) (mm : MmapRegion) (st : XlatTables) :
    Except Fault XlatTables :=
  let attr := mattrToDesc1 cfg mm.attr
  if mm.size = 0 then .ok st
  else setSections attr (numSections mm.size) (mm.va >>> 20).toNat (if attr ≠ 0 then mm.pa else 0) st

/-- The part of an area up to the next section boundary (`core_mmu_v7.c:694-695`). -/
def pieceSize (mm : MmapRegion) (size : Word) : Word :=
  wordMin size (pgdirSize - (mm.va - roundDown mm.va pgdirSize))

/-- The loop of `map_memarea`. The size goes down in each round. -/
def mapPieces (cfg : XlatCfg) (map : List MmapRegion) :
    Nat → MmapRegion → Word → XlatTables → Except Fault XlatTables
  | 0, _, _, st => .ok st
  | fuel + 1, mm, size, st =>
    if size = 0 then .ok st
    else do
      let piece := pieceSize mm size
      let st ← mapPageMemareaInPgdirs cfg map { mm with size := piece } st
      mapPieces cfg map fuel { mm with pa := mm.pa + piece, va := mm.va + piece } (size - piece) st

/-- `map_memarea` (`core_mmu_v7.c:660-702`). -/
def mapMemarea (cfg : XlatCfg) (map : List MmapRegion) (st : XlatTables) (mm : MmapRegion) :
    Except Fault XlatTables :=
  if mm.va < BitVec.ofNat 32 numUl1Entries * pgdirSize then .error .panic
  else if (mm.va ||| mm.pa ||| mm.size) &&& sectionMask = 0 then mapMemareaSections cfg mm st
  else if (mm.va ||| mm.pa ||| mm.size) &&& smallPageMask ≠ 0 then .error .panic
  else mapPieces cfg map mm.size.toNat mm mm.size st

/-- The entries before the first one of size zero, less the reserved ranges. -/
def mappedEntries (map : List MmapRegion) : List MmapRegion :=
  (map.takeWhile fun r => r.size ≠ 0).filter fun r => !r.isDynamicVaspace

/-- `core_init_mmu_tables` (`core_mmu_v7.c:692-704`); `l2` is what is in the second level tables. -/
def coreInitMmuTables (cfg : XlatCfg) (map : List MmapRegion) (l2 : Nat → Nat → Word) :
    Except Fault XlatTables :=
  (mappedEntries map).foldlM (mapMemarea cfg map) { l1 := fun _ => 0, l2 := l2, used := 0 }

/-! ## Lookup -/

/-- Where an address leads, and the bits of the descriptors on the way that are not addresses. -/
structure Translation where
  pa : Word
  level1 : Word
  level2 : Option Word
  deriving DecidableEq

/-- The translation of an address by the tables. -/
def XlatTables.walk (cfg : XlatCfg) (st : XlatTables) (va : Word) : Option Translation :=
  let desc := st.l1 (va >>> 20).toNat
  match getDescType1 desc with
  | .section =>
    some ⟨(desc &&& ~~~sectionMask) ||| (va &&& sectionMask), desc &&& sectionMask, none⟩
  | .pageTable =>
    (cfg.tableAt (desc &&& ~~~tableMask)).bind fun k =>
      let page := st.l2 k ((va >>> 12).toNat % 256)
      if getDescType2 page = .smallPage then
        some ⟨(page &&& ~~~smallPageMask) ||| (va &&& smallPageMask), desc &&& tableMask,
          some (page &&& smallPageMask)⟩
      else none
  | _ => none

end SeCloak
