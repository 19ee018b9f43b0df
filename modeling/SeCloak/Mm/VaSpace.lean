import SeCloak.Misc.BitField
import SeCloak.Mm.MemMap

/-!
# Virtual addresses (`core_mmu.c:334-603`)

`init_mem_map` builds the memory map from the registered memory, adds the two reserved ranges, sorts
the table and gives every entry its virtual address. The RAM of the TEE is mapped flat, all other
entries go below or above it.
-/

namespace SeCloak
open Misc

/-! ## Rounding -/

/-- `ROUNDUP` and `ROUNDDOWN` (`util.h:48-52`). -/
def roundUp (v size : Word) : Word := (v + (size - 1)) &&& ~~~(size - 1)
def roundDown (v size : Word) : Word := v &&& ~~~(size - 1)

/-- `CORE_MMU_PGDIR_SIZE` and `SMALL_PAGE_SIZE` (`core_mmu.h:42-56`). -/
def pgdirSize : Word := 0x00100000
def smallPageSize : Word := 0x00001000

theorem getLsbD_twoPow_sub_one {k : Nat} (hk : k < 32) (j : Nat) :
    (BitVec.twoPow 32 k - 1).getLsbD j = decide (j < k) := getLsbD_lowMask hk j

theorem roundDown_eq (v : Word) {k : Nat} (hk : k < 32) :
    roundDown v (BitVec.twoPow 32 k) = (v >>> k) <<< k := by
  apply BitVec.eq_of_getLsbD_eq
  intro j hj
  rw [roundDown, BitVec.getLsbD_and, BitVec.getLsbD_not, getLsbD_twoPow_sub_one hk]
  rcases Nat.lt_or_ge j k with hlt | hge
  · simp [hlt]
  · have hadd : k + (j - k) = j := by omega
    simp [hj, Nat.not_lt.mpr hge, hadd]

theorem toNat_roundDown (v : Word) {k : Nat} (hk : k < 32) :
    (roundDown v (BitVec.twoPow 32 k)).toNat = v.toNat / 2 ^ k * 2 ^ k := by
  have hle : v.toNat / 2 ^ k * 2 ^ k ≤ v.toNat := Nat.div_mul_le_self _ _
  rw [roundDown_eq v hk, BitVec.toNat_shiftLeft, BitVec.toNat_ushiftRight, Nat.shiftRight_eq_div_pow,
    Nat.shiftLeft_eq, Nat.mod_eq_of_lt (Nat.lt_of_le_of_lt hle v.isLt)]

theorem toNat_roundUp {v : Word} {k : Nat} (hk : k < 32) (h : v.toNat + (2 ^ k - 1) < 2 ^ 32) :
    (roundUp v (BitVec.twoPow 32 k)).toNat = (v.toNat + (2 ^ k - 1)) / 2 ^ k * 2 ^ k := by
  have hpow : (BitVec.twoPow 32 k).toNat = 2 ^ k := by
    rw [BitVec.toNat_twoPow, Nat.mod_eq_of_lt (Nat.pow_lt_pow_right (by decide) hk)]
  have hle : (1 : Word) ≤ BitVec.twoPow 32 k := by
    rw [BitVec.le_def, hpow]
    exact Nat.one_le_two_pow
  have hadd : (v + (BitVec.twoPow 32 k - 1)).toNat = v.toNat + (2 ^ k - 1) := by
    rw [BitVec.toNat_add, BitVec.toNat_sub_of_le hle, hpow]
    exact Nat.mod_eq_of_lt h
  change (roundDown (v + (BitVec.twoPow 32 k - 1)) (BitVec.twoPow 32 k)).toNat = _
  rw [toNat_roundDown _ hk, hadd]

theorem pgdirSize_eq : pgdirSize = BitVec.twoPow 32 20 := by decide

theorem smallPageSize_eq : smallPageSize = BitVec.twoPow 32 12 := by decide

/-! ## Attributes -/

/-- `TEE_MATTR_*` (`tee_mmu_types.h`). -/
def mattrValidBlock : Word := 0x001
def mattrHiddenBlock : Word := 0x002
def mattrHiddenDirtyBlock : Word := 0x004
def mattrTable : Word := 0x008
def mattrPr : Word := 0x010
def mattrPw : Word := 0x020
def mattrPx : Word := 0x040
def mattrUr : Word := 0x080
def mattrUw : Word := 0x100
def mattrUx : Word := 0x200
def mattrGlobal : Word := 0x400
def mattrSecure : Word := 0x800

/-- `TEE_MATTR_CACHE_CACHED << TEE_MATTR_CACHE_SHIFT`; the other value is zero. -/
def mattrCached : Word := 0x1000

/-- `core_mmu_type_to_attr` (`core_mmu.c:357-391`). -/
def coreMmuTypeToAttr : MemType → Except Fault Word
  | .teeRam =>
    .ok (mattrValidBlock ||| mattrGlobal ||| mattrSecure ||| mattrPr ||| mattrPw ||| mattrPx |||
      mattrCached)
  | .teeRamRx =>
    .ok (mattrValidBlock ||| mattrGlobal ||| mattrSecure ||| mattrPr ||| mattrPx ||| mattrCached)
  | .teeRamRo => .ok (mattrValidBlock ||| mattrGlobal ||| mattrSecure ||| mattrPr ||| mattrCached)
  | .teeRamRw | .taRam | .ramSec =>
    .ok (mattrValidBlock ||| mattrGlobal ||| mattrSecure ||| mattrPr ||| mattrPw ||| mattrCached)
  | .nsecShm | .ramNsec => .ok (mattrValidBlock ||| mattrGlobal ||| mattrPr ||| mattrPw ||| mattrCached)
  | .ioNsec => .ok (mattrValidBlock ||| mattrGlobal ||| mattrPr ||| mattrPw)
  | .ioSec => .ok (mattrValidBlock ||| mattrGlobal ||| mattrSecure ||| mattrPr ||| mattrPw)
  | .resVaspace | .shmVaspace => .ok 0
  | .notype | .teeCoherent | .taVaspace | .sdpMem => .error .panic

/-- `map_is_tee_ram` and `map_is_flat_mapped` (`core_mmu.c:393-409`). -/
def MmapRegion.isFlatMapped (r : MmapRegion) : Bool :=
  match r.type with
  | .teeRam | .teeRamRx | .teeRamRo | .teeRamRw => true
  | _ => false

/-- `map_is_secure` (`core_mmu.c:411-414`). -/
def mapIsSecure (r : MmapRegion) : Except Fault Bool :=
  (coreMmuTypeToAttr r.type).map fun attr => attr &&& mattrSecure ≠ 0

/-- `map_is_pgdir` (`core_mmu.c:416-419`). -/
def MmapRegion.isPgdir (r : MmapRegion) : Bool := r.regionSize = pgdirSize

/-- `core_mmu_is_dynamic_vaspace` (`core_mmu.h:330-334`). -/
def MmapRegion.isDynamicVaspace (r : MmapRegion) : Bool :=
  r.type = .resVaspace || r.type = .shmVaspace

/-! ## Comparisons -/

/-- `cmp_mmap_by_lower_va` (`core_mmu.c:421-427`); the difference is converted to `int`. -/
def cmpMmapByLowerVa (a b : MmapRegion) : Int := (a.va - b.va).toInt

/-- `cmp_mmap_by_secure_attr` (`core_mmu.c:429-440`). It panics for a type that has no attributes;
the loops that follow do so as well. -/
def cmpMmapBySecureAttr (a b : MmapRegion) : Int :=
  match coreMmuTypeToAttr a.type, coreMmuTypeToAttr b.type with
  | .ok x, .ok y =>
    if x = 0 ∨ y = 0 then 0
    else (if y &&& mattrSecure ≠ 0 then 1 else 0) - (if x &&& mattrSecure ≠ 0 then 1 else 0)
  | _, _ => 0

/-- `cmp_mmap_by_bigger_region_size` (`core_mmu.c:442-448`). -/
def cmpMmapByBiggerRegionSize (a b : MmapRegion) : Int := (b.regionSize - a.regionSize).toInt

/-- The configuration of the memory map: `CFG_TEE_RAM_START`, `CFG_TEE_RAM_VA_SIZE`, and `qsort`
(`qsort.c`), which permutes the table in a way that depends on the comparison. -/
structure MmuCfg where
  teeRamStart : Word
  teeRamVaSize : Word
  qsort : (MmapRegion → MmapRegion → Int) → List MmapRegion → List MmapRegion
  qsort_perm : ∀ cmp map, (qsort cmp map).Perm map

/-! ## Sorting -/

/-- The size of the unit an entry is mapped in (`core_mmu.c:519-528`). -/
def assignRegionSize (r : MmapRegion) : Except Fault MmapRegion :=
  let mask := r.pa ||| r.size
  if mask &&& (pgdirSize - 1) = 0 then .ok { r with regionSize := pgdirSize }
  else if mask &&& (smallPageSize - 1) = 0 then .ok { r with regionSize := smallPageSize }
  else .error .panic

/-- The two sorts before the assignment (`core_mmu.c:534-548`): large units first, and secure before
non-secure among the small ones. -/
def sortForPlacing (cfg : MmuCfg) (map : List MmapRegion) : List MmapRegion :=
  let map := cfg.qsort cmpMmapByBiggerRegionSize map
  map.takeWhile MmapRegion.isPgdir ++
    cfg.qsort cmpMmapBySecureAttr (map.dropWhile MmapRegion.isPgdir)

/-! ## Placing -/

/-- The flat mapping of an entry (`core_mmu.c:557-564`). -/
def mapFlat (r : MmapRegion) : Except Fault MmapRegion :=
  if r.isFlatMapped then (coreMmuTypeToAttr r.type).map fun attr => { r with attr := attr, va := r.pa }
  else .ok r

/-- The lowest address of the flat-mapped areas (`core_mmu.c:555,563`). -/
def flatStart : List MmapRegion → Word
  | [] => 0xFFFFFFFF
  | r :: rs => if r.isFlatMapped then wordMin (flatStart rs) (roundDown r.pa r.regionSize) else flatStart rs

/-- The end of the flat-mapped areas (`core_mmu.c:556,564`). -/
def flatEnd : List MmapRegion → Word
  | [] => 0
  | r :: rs =>
    if r.isFlatMapped then wordMax (flatEnd rs) (roundUp (r.pa + r.size) r.regionSize) else flatEnd rs

/-- `core_mmu_place_tee_ram_at_top` (`core_mmu_v7.c`). -/
def coreMmuPlaceTeeRamAtTop (paddr : Word) : Bool := 0x80000000 < paddr

/-- The loops over the entries that are not flat: `sec` is `va_is_secure`, and `step` gives the
address of an entry and the `va` after it. Its first argument says that `va_is_secure` changes. -/
def placeFrom (step : Bool → Word → MmapRegion → Word × Word) :
    Word → Bool → List MmapRegion → Except Fault (List MmapRegion)
  | _, _, [] => .ok []
  | va, sec, r :: rs =>
    if r.isFlatMapped then (placeFrom step va sec rs).map (r :: ·)
    else do
      let s ← mapIsSecure r
      let attr ← coreMmuTypeToAttr r.type
      let rest ← placeFrom step (step (sec != s) va r).2 s rs
      .ok ({ r with attr := attr, va := (step (sec != s) va r).1 } :: rest)

/-- Below the flat-mapped areas (`core_mmu.c:575-583`). -/
def stepBelow (flip : Bool) (va : Word) (r : MmapRegion) : Word × Word :=
  let va := if flip then roundDown va pgdirSize else va
  -- no support for sharing second level tables
  let va := roundDown (roundDown (va - r.size) r.regionSize) pgdirSize
  (va, va)

/-- Above the flat-mapped areas (`core_mmu.c:591-599`). -/
def stepAbove (flip : Bool) (va : Word) (r : MmapRegion) : Word × Word :=
  let va := if flip then roundUp va pgdirSize else va
  let va := roundUp (roundUp va r.regionSize) pgdirSize
  (va, va + r.size)

/-- Where the entries above the flat-mapped areas start (`core_mmu.c:587`). -/
def placeAboveStart (cfg : MmuCfg) (va : Word) : Word := roundUp (va + cfg.teeRamVaSize) pgdirSize

/-- The entries that are not flat, after the flat ones have their addresses
(`core_mmu.c:566-601`). -/
def placeNonFlat (cfg : MmuCfg) (map : List MmapRegion) : Except Fault (List MmapRegion) :=
  let va := flatStart map
  if va < cfg.teeRamStart then .error .assertion
  else if cfg.teeRamStart + cfg.teeRamVaSize < flatEnd map then .error .assertion
  else if coreMmuPlaceTeeRamAtTop va then placeFrom stepBelow va true map
  else placeFrom stepAbove (placeAboveStart cfg va) true map

/-- The table with region sizes, sorted, and with the flat entries mapped (`core_mmu.c:515-565`). -/
def beforePlacing (cfg : MmuCfg) (map : List MmapRegion) : Except Fault (List MmapRegion) := do
  let map ← map.mapM assignRegionSize
  (sortForPlacing cfg map).mapM mapFlat

/-- The rest of `init_mem_map` after the table is filled (`core_mmu.c:515-603`). -/
def placeMemMap (cfg : MmuCfg) (map : List MmapRegion) : Except Fault (List MmapRegion) := do
  let map ← beforePlacing cfg map
  let map ← placeNonFlat cfg map
  .ok (cfg.qsort cmpMmapByLowerVa map)

/-! ## Filling the table -/

/-- `is_valid_conf_and_notnull_size`, `_core_is_buffer_inside` and `_core_is_buffer_intersect`
(`tee_misc.c:90-136`). -/
def isValidConfAndNotnullSize (b bl a al : Word) : Bool :=
  !(b - 1 + bl < b || a - 1 + al < a) && bl ≠ 0 && al ≠ 0

def coreIsBufferInside (b bl a al : Word) : Bool :=
  isValidConfAndNotnullSize b bl a al && a ≤ b && b - 1 + bl ≤ a - 1 + al

def coreIsBufferIntersect (b bl a al : Word) : Bool :=
  isValidConfAndNotnullSize b bl a al && !(b + bl ≤ a || a + al ≤ b)

/-- `MAX_MMAP_REGIONS + 1`, the size of `static_memory_map` (`core_mmu.c:48,63`). -/
def mmapEntries : Nat := 14

/-- `RES_VASPACE_SIZE` (`core_mmu.c:49`). -/
def resVaspaceSize : Word := 0x00A00000

/-- Memory with I/O registers is mapped in whole sections (`core_mmu.c:490-494`). -/
def PhysMem.sections (m : PhysMem) : PhysMem :=
  if m.type = .ioNsec ∨ m.type = .ioSec then
    { m with addr := roundDown m.addr pgdirSize
             size := roundUp (m.size + (m.addr - roundDown m.addr pgdirSize)) pgdirSize }
  else m

/-- One round of the loop over the registered memory (`core_mmu.c:480-497`). Nothing is registered as
`MEM_AREA_NOTYPE`, which marks the end of the table. -/
def collectMem (map : List MmapRegion) (m : PhysMem) : Except Fault (List MmapRegion) :=
  if m.size = 0 then .ok map
  else if m.addr ≠ 0 then addPhysMem mmapEntries m.sections map
  else do
    -- only unmapped virtual range may have a null phys addr
    let attr ← coreMmuTypeToAttr m.type
    if attr ≠ 0 then .error .assertion else addPhysMem mmapEntries m.sections map

/-- `verify_special_mem_areas` (`core_mmu.c:230-280`). -/
def verifySpecialMemAreas (map : List MmapRegion) (special : List PhysMem) : Except Fault Unit :=
  if ¬ special.Pairwise fun mem mem2 =>
      coreIsBufferIntersect mem2.addr mem2.size mem.addr mem.size = false then .error .panic
  else if special.any fun mem =>
      map.any fun r => coreIsBufferIntersect mem.addr mem.size r.pa r.size then .error .panic
  else .ok ()

/-- The loop of `add_va_space` from the entry `n` on. -/
def addVaSpaceFrom (type : MemType) (size : Word) :
    Nat → List MmapRegion → Except Fault (List MmapRegion)
  | n, [] => if mmapEntries - 1 ≤ n then .error .panic else .ok [{ type := type, size := size }]
  | n, r :: rs =>
    if mmapEntries - 1 ≤ n then .error .panic
    else if type.val < r.type.val then .ok ({ type := type, size := size } :: r :: rs)
    else (addVaSpaceFrom type size (n + 1) rs).map (r :: ·)

/-- `add_va_space` (`core_mmu.c:334-355`). -/
def addVaSpace (type : MemType) (size : Word) (map : List MmapRegion) :
    Except Fault (List MmapRegion) :=
  addVaSpaceFrom type size 0 map

/-- `init_mem_map` (`core_mmu.c:470-603`), from the registered memory and the special areas. -/
def initMemMap (cfg : MmuCfg) (mems special : List PhysMem) : Except Fault (List MmapRegion) := do
  let map ← mems.foldlM collectMem []
  verifySpecialMemAreas map special
  let map ← addVaSpace .resVaspace resVaspaceSize map
  let map ← addVaSpace .shmVaspace resVaspaceSize map
  placeMemMap cfg map

end SeCloak
