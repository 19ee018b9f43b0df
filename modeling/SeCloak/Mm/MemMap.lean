import SeCloak.State
import SeCloak.Misc.Span

/-!
# The memory map (`core_mmu.c:282-332`)

The memory that the linker collects from the drivers is entered into a table that is kept sorted by
type and physical address. An entry that overlaps one of the same type is coalesced with it.
-/

namespace SeCloak
open Misc

/-! ## Data -/

/-- `enum teecore_memtypes` (`core_mmu.h:107-125`), without its upper bound. -/
inductive MemType where
  | notype
  | teeRam
  | teeRamRx
  | teeRamRo
  | teeRamRw
  | teeCoherent
  | taRam
  | nsecShm
  | ramNsec
  | ramSec
  | ioNsec
  | ioSec
  | resVaspace
  | shmVaspace
  | taVaspace
  | sdpMem
  deriving DecidableEq

/-- The number of a type. -/
def MemType.val : MemType → Nat
  | .notype => 0
  | .teeRam => 1
  | .teeRamRx => 2
  | .teeRamRo => 3
  | .teeRamRw => 4
  | .teeCoherent => 5
  | .taRam => 6
  | .nsecShm => 7
  | .ramNsec => 8
  | .ramSec => 9
  | .ioNsec => 10
  | .ioSec => 11
  | .resVaspace => 12
  | .shmVaspace => 13
  | .taVaspace => 14
  | .sdpMem => 15

theorem MemType.val_inj {t t' : MemType} : t.val = t'.val ↔ t = t' := by
  cases t <;> cases t' <;> decide

/-- `struct core_mmu_phys_mem` (`core_mmu.h:173-178`); the name is only traced. -/
structure PhysMem where
  type : MemType
  addr : Word
  size : Word
  deriving DecidableEq

/-- `struct tee_mmap_region` (`tee_mmu_types.h`). -/
structure MmapRegion where
  type : MemType
  regionSize : Word := 0
  pa : Word := 0
  va : Word := 0
  size : Word := 0
  attr : Word := 0
  deriving DecidableEq

/-- The physical addresses of an entry. -/
def MmapRegion.pspan (r : MmapRegion) : Span := ⟨r.pa.toNat, r.pa.toNat + r.size.toNat⟩

/-- `MIN` and `MAX` (`util.h:34-42`). -/
def wordMin (a b : Word) : Word := if a < b then a else b
def wordMax (a b : Word) : Word := if b < a then a else b

theorem toNat_wordMin (a b : Word) : (wordMin a b).toNat = min a.toNat b.toNat := by
  unfold wordMin
  split
  · rename_i h
    have h : a.toNat < b.toNat := h
    omega
  · rename_i h
    have h : ¬ a.toNat < b.toNat := h
    omega

theorem toNat_wordMax (a b : Word) : (wordMax a b).toNat = max a.toNat b.toNat := by
  unfold wordMax
  split
  · rename_i h
    have h : b.toNat < a.toNat := h
    omega
  · rename_i h
    have h : ¬ b.toNat < a.toNat := h
    omega

/-! ## Registration -/

/-- The test for a coalesced entry (`core_mmu.c:307-309`), in 32-bit arithmetic. -/
def MmapRegion.overlaps (r : MmapRegion) (mem : PhysMem) : Prop :=
  mem.type = r.type ∧
    ((r.pa ≤ mem.addr ∧ mem.addr ≤ r.pa + (r.size - 1)) ∨
      (mem.addr ≤ r.pa ∧ r.pa ≤ mem.addr + (mem.size - 1)))

instance (r : MmapRegion) (mem : PhysMem) : Decidable (r.overlaps mem) :=
  inferInstanceAs (Decidable (_ ∧ _))

/-- The entry that an overlapping range is coalesced into (`core_mmu.c:311-313`). -/
def MmapRegion.coalesce (r : MmapRegion) (mem : PhysMem) : MmapRegion :=
  { r with pa := wordMin r.pa mem.addr
           size := wordMax r.size mem.size + (r.pa - wordMin r.pa mem.addr) }

/-- The spot where to insert the memory is before this entry (`core_mmu.c:316-317`). -/
def PhysMem.before (mem : PhysMem) (r : MmapRegion) : Prop :=
  mem.type.val < r.type.val ∨ (mem.type = r.type ∧ mem.addr < r.pa)

instance (mem : PhysMem) (r : MmapRegion) : Decidable (mem.before r) :=
  inferInstanceAs (Decidable (_ ∨ _))

/-- A new entry (`core_mmu.c:325-328`). -/
def PhysMem.region (mem : PhysMem) : MmapRegion :=
  { type := mem.type, pa := mem.addr, size := mem.size }

/-- The loop of `add_phys_mem` from the entry `n` on; `num_elems` is the size of the array and not
zero. -/
def addPhysMemFrom (numElems : Nat) (mem : PhysMem) :
    Nat → List MmapRegion → Except Fault (List MmapRegion)
  | n, [] => if numElems - 1 ≤ n then .error .panic else .ok [mem.region]
  | n, r :: rs =>
    if numElems - 1 ≤ n then .error .panic
    else if r.overlaps mem then .ok (r.coalesce mem :: rs)
    else if mem.before r then .ok (mem.region :: r :: rs)
    else (addPhysMemFrom numElems mem (n + 1) rs).map (r :: ·)

/-- `add_phys_mem` (`core_mmu.c:282-329`): the entries below `last`. -/
def addPhysMem (numElems : Nat) (mem : PhysMem) (map : List MmapRegion) :
    Except Fault (List MmapRegion) :=
  addPhysMemFrom numElems mem 0 map

/-- Registrations one after the other, from an empty table. -/
def registerAll (numElems : Nat) (mems : List PhysMem) : Except Fault (List MmapRegion) :=
  mems.foldlM (fun map mem => addPhysMem numElems mem map) []

end SeCloak
