import Mathlib.Data.List.Pairwise
import SeCloak.Misc.Steps
import SeCloak.Mm.Mapped

/-!
# Late mappings (`core_mmu.c:734-1017`)

Drivers map their registers while the kernel runs: `core_mmu_add_mapping` cuts a piece off the
reserved range and enters it into the memory map and into the translation tables. What is left of the
range is not compared with the piece, so a long request runs into the entries behind it. As long as
each piece fits, the entries stay apart and the two lookups agree (`lookups_agree`).
-/

namespace SeCloak
open Misc

/-! ## Lookups -/

/-- `static_memory_map` and the translation tables. -/
structure MmuState where
  map : List MmapRegion
  tables : XlatTables

/-- `va_is_in_map` (`core_mmu.c:132-137`). -/
def MmapRegion.vaIsIn (r : MmapRegion) (va : Word) : Bool := r.va ≤ va && va ≤ r.va + r.size - 1

/-- `find_map_by_type` (`core_mmu.c:146-154`). -/
def findMapByType (map : List MmapRegion) (type : MemType) : Option MmapRegion :=
  map.find? fun r => r.type = type

/-- `find_map_by_va` (`core_mmu.c:179-190`). -/
def findMapByVa (map : List MmapRegion) (va : Word) : Option MmapRegion :=
  map.find? fun r => r.va ≤ va && va ≤ r.va - 1 + r.size

/-- `core_va2pa_helper` (`core_mmu.c:734-753`), `none` if it returns -1. Ranges reserved for dynamic
mapping match with a null physical address. -/
def coreVa2paHelper (map : List MmapRegion) (va : Word) : Option Word :=
  match findMapByVa map va with
  | none => none
  | some r => if r.vaIsIn va then some (if r.pa ≠ 0 then r.pa + va - r.va else 0) else none

/-- `arm_va2pa_helper` (`core_mmu.c:922-943`): the translation that the hardware does. -/
def armVa2paHelper (cfg : XlatCfg) (tables : XlatTables) (va : Word) : Option Word :=
  (tables.walk cfg va).map Translation.pa

/-- `check_pa_matches_va` (`core_mmu.c:945-962`); `debug` is `CFG_TEE_CORE_DEBUG`. -/
def checkPaMatchesVa (debug : Bool) (map : List MmapRegion) (va pa : Word) : Except Fault Unit :=
  if debug then
    match coreVa2paHelper map va with
    | some p => if p ≠ 0 ∧ pa ≠ p then .error .panic else .ok ()
    | none => if pa ≠ 0 then .error .panic else .ok ()
  else .ok ()

/-- `virt_to_phys` (`core_mmu.c:964-972`). -/
def virtToPhys (debug : Bool) (cfg : XlatCfg) (st : MmuState) (va : Word) : Except Fault Word := do
  let pa := (armVa2paHelper cfg st.tables va).getD 0
  checkPaMatchesVa debug st.map va pa
  .ok pa

/-- `check_va_matches_pa` (`core_mmu.c:974-984`). -/
def checkVaMatchesPa (debug : Bool) (cfg : XlatCfg) (st : MmuState) (pa va : Word) :
    Except Fault Unit :=
  if debug = true ∧ va ≠ 0 then do
    let p ← virtToPhys debug cfg st va
    if p ≠ pa then .error .panic else .ok ()
  else .ok ()

/-- `phys_to_virt` (`core_mmu.c:1001-1017`); zero is `NULL`. -/
def physToVirt (debug : Bool) (cfg : XlatCfg) (st : MmuState) (pa : Word) (m : MemType) :
    Except Fault Word := do
  let va := match m with
    | .teeRam | .teeRamRx | .teeRamRo | .teeRamRw => physToVirtTeeRam st.map pa
    | _ => mapPa2va (findMapByTypeAndPa st.map m pa) pa
  checkVaMatchesPa debug cfg st pa va
  .ok va

/-! ## Tables -/

/-- A pointer to `main_mmu_l1_ttb` or to a second level table, at the same address in TEE RAM. -/
inductive TablePtr where
  | main
  | second (l2tbl : Word)
  deriving DecidableEq

/-- `struct core_mmu_table_info` (`core_mmu.h:242-248`). -/
structure CoreMmuTableInfo where
  table : TablePtr
  vaBase : Word
  level : Nat
  shift : Nat
  numEntries : Nat
  deriving DecidableEq

/-- `core_mmu_set_info_table` (`core_mmu_v7.c:443-457`). -/
def coreMmuSetInfoTable (level : Nat) (vaBase : Word) (table : TablePtr) : CoreMmuTableInfo :=
  { table := table, vaBase := vaBase, level := level
    shift := if level = 1 then 20 else 12
    numEntries := if level = 1 then numL1Entries else 256 }

/-- `core_mmu_find_table` (`core_mmu_v7.c:467-485`). -/
def coreMmuFindTable (debug : Bool) (cfg : XlatCfg) (st : MmuState) (va maxLevel : Word) :
    Except Fault (Option CoreMmuTableInfo) :=
  let n := va >>> 20
  let desc := st.tables.l1 n.toNat
  if maxLevel = 1 ∨ desc &&& 3 ≠ 1 then .ok (some (coreMmuSetInfoTable 1 0 .main))
  else do
    let l2tbl ← physToVirt debug cfg st (desc &&& ~~~tableMask) .teeRamRw
    if l2tbl = 0 then .ok none
    else .ok (some (coreMmuSetInfoTable 2 (n <<< 20) (.second l2tbl)))

/-- `core_mmu_va2idx` (`core_mmu.h:294-298`). -/
def CoreMmuTableInfo.va2idx (info : CoreMmuTableInfo) (va : Word) : Nat :=
  ((va - info.vaBase) >>> info.shift).toNat

/-- `core_mmu_get_block_offset` (`core_mmu.h:318-322`). -/
def CoreMmuTableInfo.getBlockOffset (info : CoreMmuTableInfo) (pa : Word) : Word :=
  pa &&& ((1 <<< info.shift) - 1)

/-- `core_mmu_set_entry_primitive` (`core_mmu_v7.c:487-494`). A pointer to no table is written
through. -/
def coreMmuSetEntryPrimitive (cfg : XlatCfg) (info : CoreMmuTableInfo) (idx : Nat) (pa attr : Word)
    (tables : XlatTables) : Except Fault XlatTables :=
  let desc := if info.level = 1 then mattrToDesc1 cfg attr else mattrToDesc2 cfg attr
  match info.table with
  | .main => .ok (tables.setL1 idx (desc ||| pa))
  | .second l2tbl =>
    match cfg.tableAt l2tbl with
    | some k => .ok (tables.setL2 k idx (desc ||| pa))
    | none => .error .undefined

/-- The loop of `set_region` for the `n` entries from `idx` on. Without the assertion of
`core_mmu_set_entry` an entry after the last one is written behind the table. -/
def setEntries (debug : Bool) (cfg : XlatCfg) (info : CoreMmuTableInfo) (attr : Word) :
    Nat → Nat → Word → XlatTables → Except Fault XlatTables
  | 0, _, _, tables => .ok tables
  | n + 1, idx, pa, tables =>
    if idx < info.numEntries then do
      let tables ← coreMmuSetEntryPrimitive cfg info idx pa attr tables
      setEntries debug cfg info attr n (idx + 1) (pa + 1 <<< info.shift) tables
    else .error (if debug then .assertion else .undefined)

/-- `set_region` (`core_mmu.c:834-855`). -/
def setRegion (debug : Bool) (cfg : XlatCfg) (info : CoreMmuTableInfo) (region : MmapRegion)
    (tables : XlatTables) : Except Fault XlatTables :=
  if debug = true ∧ ¬ (info.getBlockOffset region.va = 0 ∧ info.getBlockOffset region.size = 0 ∧
      info.getBlockOffset region.pa = 0) then .error .assertion
  else
    let idx := info.va2idx region.va
    setEntries debug cfg info region.attr (info.va2idx (region.va + region.size) - idx) idx region.pa
      tables

/-! ## Mapping -/

/-- What `core_mmu_add_mapping` does once it has looked at its arguments: return, or cut a mapping off
the reserved range. -/
inductive MappingPlan where
  | done (result : Bool)
  | cut (res : MmapRegion) (info : CoreMmuTableInfo)
  deriving DecidableEq

/-- The beginning of `core_mmu_add_mapping` (`core_mmu.c:866-891`). The check that the mapping fits
into the table is about the length as given. -/
def planMapping (debug : Bool) (cfg : XlatCfg) (st : MmuState) (type : MemType) (addr len : Word) :
    Except Fault MappingPlan :=
  if len = 0 then .ok (.done true)
  -- check if the memory is already mapped
  else if (findMapByTypeAndPa st.map type addr).any fun r =>
      coreIsBufferInside addr len r.pa r.size then .ok (.done true)
  else
    match findMapByType st.map .resVaspace with
    | none => .ok (.done false)
    | some res => do
      match ← coreMmuFindTable debug cfg st res.va 0xFFFFFFFF with
      | none => .ok (.done false)
      | some info =>
        if info.numEntries ≤ info.va2idx (res.va + len) then .ok (.done false)
        else .ok (.cut res info)

/-- The granule of a table, and the start and the length of a mapping in it (`core_mmu.c:882-884`). -/
def CoreMmuTableInfo.granule (info : CoreMmuTableInfo) : Word := 1 <<< info.shift
def CoreMmuTableInfo.start (info : CoreMmuTableInfo) (addr : Word) : Word :=
  roundDown addr info.granule
def CoreMmuTableInfo.length (info : CoreMmuTableInfo) (addr len : Word) : Word :=
  roundUp (len + addr - info.start addr) info.granule

/-- Writes through the pointer that `find_map_by_type(MEM_AREA_RES_VASPACE)` returned. -/
def changeReserved (f : MmapRegion → MmapRegion) : List MmapRegion → List MmapRegion
  | [] => []
  | r :: rs => if r.type = .resVaspace then f r :: rs else r :: changeReserved f rs

/-- The entries after a mapping of `l` bytes with the given type, granule, attributes and physical
address is cut off the reserved range, and the new one (`core_mmu.c:893-917`). -/
def cutMapping (map : List MmapRegion) (res : MmapRegion) (type : MemType)
    (granule attr p l : Word) : List MmapRegion × MmapRegion :=
  let region : MmapRegion :=
    { type := type, regionSize := granule, pa := p, va := res.va, size := l, attr := attr }
  if map.length < mmapEntries - 1 then
    -- there's room for another entry
    (changeReserved (fun r => { r with va := r.va + l, size := r.size - l }) map ++ [region], region)
  else
    -- there isn't room for another entry, steal the reserved one
    (changeReserved (fun _ => region) map, region)

/-- `core_mmu_add_mapping` (`core_mmu.c:857-920`). -/
def coreMmuAddMapping (debug : Bool) (cfg : XlatCfg) (st : MmuState) (type : MemType)
    (addr len : Word) : Except Fault (Bool × MmuState) := do
  match ← planMapping debug cfg st type addr len with
  | .done result => .ok (result, st)
  | .cut res info =>
    let attr ← coreMmuTypeToAttr type
    let (map, region) := cutMapping st.map res type info.granule attr (info.start addr)
      (info.length addr len)
    let tables ← setRegion debug cfg info region st.tables
    .ok (true, { map := map, tables := tables })

/-! ## Entries apart -/

/-- The virtual addresses of the entries are apart, and neither the first nor the last address is one
of them. -/
structure Laid (map : List MmapRegion) : Prop where
  apart : map.Pairwise fun r q => r.vspan.Apart q.vspan
  pos : ∀ r ∈ map, 0 < r.va.toNat
  hi_lt : ∀ r ∈ map, r.vspan.hi < 2 ^ 32

section Laid

variable {map map' rs : List MmapRegion} {r q res : MmapRegion} {va pa : Word}

theorem Laid.perm (h : Laid map) (hperm : map'.Perm map) : Laid map' where
  apart := (hperm.pairwise_iff fun hrq => hrq.symm).mpr h.apart
  pos r hr := h.pos r (hperm.subset hr)
  hi_lt r hr := h.hi_lt r (hperm.subset hr)

theorem laid_cons : Laid (r :: rs) ↔
    (∀ q ∈ rs, r.vspan.Apart q.vspan) ∧ 0 < r.va.toNat ∧ r.vspan.hi < 2 ^ 32 ∧ Laid rs := by
  constructor
  · intro h
    obtain ⟨hr, hrs⟩ := List.pairwise_cons.mp h.apart
    refine ⟨hr, h.pos r List.mem_cons_self, h.hi_lt r List.mem_cons_self, hrs, ?_, ?_⟩
    · intro q hq
      exact h.pos q (List.mem_cons_of_mem _ hq)
    · intro q hq
      exact h.hi_lt q (List.mem_cons_of_mem _ hq)
  · intro ⟨hr, hpos, hhi, hrs⟩
    refine ⟨List.pairwise_cons.mpr ⟨hr, hrs.apart⟩, ?_, ?_⟩
    · intro q hq
      rcases List.mem_cons.mp hq with rfl | hq
      · exact hpos
      · exact hrs.pos q hq
    · intro q hq
      rcases List.mem_cons.mp hq with rfl | hq
      · exact hhi
      · exact hrs.hi_lt q hq

theorem apart_of_ne (h : map.Pairwise fun r q => r.vspan.Apart q.vspan) (hr : r ∈ map) (hq : q ∈ map)
    (hne : r ≠ q) : r.vspan.Apart q.vspan :=
  haveI : Std.Symm fun r q : MmapRegion => r.vspan.Apart q.vspan := ⟨fun _ _ hrq => hrq.symm⟩
  h.forall hr hq hne

/-- A write through the pointer changes the entry that was found, and no other. -/
theorem changeReserved_perm (h : findMapByType map .resVaspace = some res) :
    ∃ rest, map.Perm (res :: rest) ∧ ∀ f, (changeReserved f map).Perm (f res :: rest) := by
  induction map with
  | nil => cases h
  | cons r rs ih =>
    unfold findMapByType at h ih
    rw [List.find?_cons] at h
    by_cases htype : r.type = .resVaspace
    · rw [decide_eq_true htype] at h
      obtain rfl := Option.some.inj h
      refine ⟨rs, List.Perm.refl _, fun f => ?_⟩
      rw [changeReserved, if_pos htype]
    · rw [decide_eq_false htype] at h
      obtain ⟨rest, hperm, hchange⟩ := ih h
      refine ⟨r :: rest, (hperm.cons r).trans (List.Perm.swap _ _ _), fun f => ?_⟩
      rw [changeReserved, if_neg htype]
      exact ((hchange f).cons r).trans (List.Perm.swap _ _ _)

/-- A mapping that is no longer than the reserved range is cut off its start. -/
theorem Laid.cut (h : Laid map) (hres : findMapByType map .resVaspace = some res) {l : Word}
    (hfits : l ≤ res.size) (type : MemType) (granule attr p : Word) :
    Laid (cutMapping map res type granule attr p l).1 := by
  obtain ⟨rest, hperm, hchange⟩ := changeReserved_perm hres
  obtain ⟨hapart, hpos, hhi, hrest⟩ := laid_cons.mp (h.perm hperm.symm)
  have hle : l.toNat ≤ res.size.toNat := hfits
  have hend : res.va.toNat + res.size.toNat < 2 ^ 32 := hhi
  have hva : (res.va + l).toNat = res.va.toNat + l.toNat := by
    rw [BitVec.toNat_add]
    exact Nat.mod_eq_of_lt (by omega)
  have hsize : (res.size - l).toNat = res.size.toNat - l.toNat := BitVec.toNat_sub_of_le hfits
  -- the new entry is a part of the reserved range in both cases
  have hnew : ∀ q ∈ rest, (Span.mk res.va.toNat (res.va.toNat + l.toNat)).Apart q.vspan := by
    intro q hq
    exact (hapart q hq).mono (Nat.le_refl _) (Nat.add_le_add_left hle _)
  unfold cutMapping
  dsimp only
  split
  · refine Laid.perm ?_ (List.perm_append_comm.trans ((hchange _).cons _))
    refine laid_cons.mpr ⟨?_, hpos, Nat.lt_of_le_of_lt (Nat.add_le_add_left hle _) hend, ?_⟩
    · intro q hq
      rcases List.mem_cons.mp hq with rfl | hq
      · exact Span.apart_of_le (Nat.le_of_eq hva.symm)
      · exact hnew q hq
    · refine laid_cons.mpr ⟨?_, ?_, ?_, hrest⟩
      · intro q hq
        refine (hapart q hq).mono ?_ ?_
        · change res.va.toNat ≤ (res.va + l).toNat
          omega
        · change (res.va + l).toNat + (res.size - l).toNat ≤ res.va.toNat + res.size.toNat
          omega
      · change 0 < (res.va + l).toNat
        omega
      · change (res.va + l).toNat + (res.size - l).toNat < 2 ^ 32
        omega
  · refine Laid.perm ?_ (hchange _)
    exact laid_cons.mpr ⟨hnew, hpos, Nat.lt_of_le_of_lt (Nat.add_le_add_left hle _) hend, hrest⟩

theorem Laid.vaIsIn_iff (h : Laid map) (hr : r ∈ map) :
    r.vaIsIn va = true ↔ r.vspan.Has va.toNat := by
  have hpos := h.pos r hr
  have hhi : r.va.toNat + r.size.toNat < 2 ^ 32 := h.hi_lt r hr
  have hadd : (r.va + r.size).toNat = r.va.toNat + r.size.toNat := by
    rw [BitVec.toNat_add]
    exact Nat.mod_eq_of_lt hhi
  have hlast : (r.va + r.size - 1).toNat = r.va.toNat + r.size.toNat - 1 := by
    rw [BitVec.toNat_sub_of_le, hadd]
    · rfl
    · rw [BitVec.le_def, hadd]
      exact Nat.le_trans hpos (Nat.le_add_right _ _)
  unfold MmapRegion.vaIsIn
  rw [Bool.and_eq_true, decide_eq_true_eq, decide_eq_true_eq, BitVec.le_def, BitVec.le_def, hlast]
  unfold Span.Has MmapRegion.vspan
  dsimp only
  omega

/-- The entry of an address is found by it. -/
theorem Laid.findMapByVa_eq (h : Laid map) (hr : r ∈ map) (hva : r.vspan.Has va.toNat) :
    findMapByVa map va = some r := by
  have hpred : (fun q : MmapRegion => q.va ≤ va && va ≤ q.va - 1 + q.size) = fun q => q.vaIsIn va := by
    funext q
    have hcomm : q.va - 1 + q.size = q.va + q.size - 1 := by
      rw [BitVec.sub_eq_add_neg, BitVec.sub_eq_add_neg, BitVec.add_assoc, BitVec.add_comm (-1),
        BitVec.add_assoc]
    unfold MmapRegion.vaIsIn
    rw [hcomm]
  unfold findMapByVa
  rw [hpred]
  cases hfind : map.find? fun q => q.vaIsIn va with
  | none =>
    have hno := List.find?_eq_none.mp hfind r hr
    exact absurd ((h.vaIsIn_iff hr).mpr hva) hno
  | some q =>
    have hq := List.mem_of_find?_eq_some hfind
    have hin := List.find?_some hfind
    have hqva := (h.vaIsIn_iff hq).mp hin
    by_contra hne
    exact apart_of_ne h.apart hr hq (fun heq => hne (by rw [heq])) va.toNat hva hqva

end Laid

/-! ## Both lookups -/

/-- The entry that `phys_to_virt` goes through. -/
def physToVirtEntry (map : List MmapRegion) (pa : Word) (m : MemType) : Option MmapRegion :=
  match m with
  | .teeRam | .teeRamRx | .teeRamRo | .teeRamRw =>
    (((findMapByTypeAndPa map .teeRam pa).orElse fun _ => findMapByTypeAndPa map .teeRamRw pa).orElse
      fun _ => findMapByTypeAndPa map .teeRamRo pa).orElse
      fun _ => findMapByTypeAndPa map .teeRamRx pa
  | _ => findMapByTypeAndPa map m pa

section Lookups

variable {debug : Bool} {cfg : XlatCfg} {st st' : MmuState} {map : List MmapRegion}
  {r : MmapRegion} {m : MemType} {va pa : Word}

theorem physToVirt_ok (h : physToVirt debug cfg st pa m = .ok va) :
    va = mapPa2va (physToVirtEntry st.map pa m) pa := by
  obtain ⟨_, _, h⟩ := except_bind_ok h
  have hva := (Except.ok.inj h).symm
  cases m <;> exact hva

theorem mem_of_orElse {a : Option MmapRegion} {f : Unit → Option MmapRegion}
    {P : MmapRegion → Prop} (ha : ∀ r, a = some r → P r) (hf : ∀ r, f () = some r → P r)
    (h : a.orElse f = some r) : P r := by
  cases a with
  | none => exact hf r h
  | some q => exact ha r h

theorem mem_of_findMapByTypeAndPa {type : MemType} (h : findMapByTypeAndPa map type pa = some r) :
    r ∈ map ∧ r.paIsIn pa = true := by
  have hpred := List.find?_some h
  exact ⟨List.mem_of_find?_eq_some h, (Bool.and_eq_true _ _ ▸ hpred).2⟩

theorem mem_of_physToVirtEntry (h : physToVirtEntry map pa m = some r) :
    r ∈ map ∧ r.paIsIn pa = true := by
  have hone : ∀ type r, findMapByTypeAndPa map type pa = some r → r ∈ map ∧ r.paIsIn pa = true :=
    fun type r => mem_of_findMapByTypeAndPa
  cases m with
  | teeRam | teeRamRx | teeRamRo | teeRamRw =>
    refine mem_of_orElse ?_ (hone .teeRamRx) h
    intro r hr
    refine mem_of_orElse ?_ (hone .teeRamRo) hr
    intro r hr
    exact mem_of_orElse (hone .teeRam) (hone .teeRamRw) hr
  | _ => exact mem_of_findMapByTypeAndPa h

/-- An entry that has addresses at all ends after those that it is found for. An empty one at zero is
found for every address. -/
theorem MmapRegion.sub_lt_of_paIsIn (h : r.paIsIn pa = true) (hne : r.pa ≠ 0 ∨ r.size ≠ 0) :
    r.pa.toNat ≤ pa.toNat ∧ pa.toNat - r.pa.toNat < r.size.toNat := by
  unfold MmapRegion.paIsIn at h
  rw [Bool.and_eq_true, decide_eq_true_eq, decide_eq_true_eq] at h
  obtain ⟨hlo, hhi⟩ := h
  have hne' : r.pa.toNat ≠ 0 ∨ r.size.toNat ≠ 0 :=
    hne.imp (fun h h' => h (BitVec.eq_of_toNat_eq h')) fun h h' => h (BitVec.eq_of_toNat_eq h')
  bv_omega

/-- What `phys_to_virt` returns through an entry leads back, to zero if the entry has a null physical
address. -/
theorem Laid.coreVa2paHelper_eq (h : Laid map) (hr : r ∈ map) (hin : r.paIsIn pa = true)
    (hne : r.pa ≠ 0 ∨ r.size ≠ 0) :
    coreVa2paHelper map (r.va + pa - r.pa) = some (if r.pa ≠ 0 then pa else 0) := by
  obtain ⟨hle, hlt⟩ := r.sub_lt_of_paIsIn hin hne
  have hhi : r.va.toNat + r.size.toNat < 2 ^ 32 := h.hi_lt r hr
  have hva : (r.va + pa - r.pa).toNat = r.va.toNat + (pa.toNat - r.pa.toNat) := by bv_omega
  have hhas : r.vspan.Has (r.va + pa - r.pa).toNat := by
    rw [hva]
    exact ⟨Nat.le_add_right _ _, Nat.add_lt_add_left hlt _⟩
  have hback : r.pa + (r.va + pa - r.pa) - r.va = pa := by bv_omega
  unfold coreVa2paHelper
  rw [h.findMapByVa_eq hr hhas]
  dsimp only
  rw [if_pos ((h.vaIsIn_iff hr).mpr hhas), hback]

end Lookups

/-! ## Calls -/

/-- The mapping of a call is no longer than what is left of the reserved range. -/
def MappingFits (debug : Bool) (cfg : XlatCfg) (st : MmuState) (mem : PhysMem) : Prop :=
  match planMapping debug cfg st mem.type mem.addr mem.size with
  | .ok (.cut res info) => info.length mem.addr mem.size ≤ res.size
  | _ => True

instance (debug : Bool) (cfg : XlatCfg) (st : MmuState) (mem : PhysMem) :
    Decidable (MappingFits debug cfg st mem) := by
  unfold MappingFits
  split <;> infer_instance

/-- A call with a mapping that fits. -/
def AddsMapping (debug : Bool) (cfg : XlatCfg) (st : MmuState) (mem : PhysMem) (st' : MmuState) :
    Prop :=
  MappingFits debug cfg st mem ∧
    ∃ result, coreMmuAddMapping debug cfg st mem.type mem.addr mem.size = .ok (result, st')

section Calls

variable {debug : Bool} {cfg : XlatCfg} {st st' : MmuState} {mem : PhysMem}

theorem findMapByType_of_planMapping {type : MemType} {addr len : Word} {res : MmapRegion}
    {info : CoreMmuTableInfo} (h : planMapping debug cfg st type addr len = .ok (.cut res info)) :
    findMapByType st.map .resVaspace = some res := by
  unfold planMapping at h
  split at h
  · cases h
  · split at h
    · cases h
    · split at h
      · cases h
      · rename_i q hq
        obtain ⟨found, -, h⟩ := except_bind_ok h
        cases found with
        | none => cases h
        | some info' =>
          dsimp only at h
          split at h
          · cases h
          · cases h
            exact hq

theorem AddsMapping.laid (h : AddsMapping debug cfg st mem st') (hst : Laid st.map) : Laid st'.map := by
  obtain ⟨hfits, result, hrun⟩ := h
  obtain ⟨plan, hplan, hrun⟩ := except_bind_ok hrun
  cases plan with
  | done b =>
    cases hrun
    exact hst
  | cut res info =>
    obtain ⟨attr, -, hrun⟩ := except_bind_ok hrun
    obtain ⟨tables, -, hrun⟩ := except_bind_ok hrun
    unfold MappingFits at hfits
    rw [hplan] at hfits
    cases hrun
    exact hst.cut (findMapByType_of_planMapping hplan) hfits _ _ _ _

/-- From any map whose entries are apart, they stay apart over any calls with mappings that fit, and what
`phys_to_virt` returns leads back: to the physical address, or to zero if the entry has none. -/
theorem late_mappings_agree {calls : List PhysMem} (hlaid : Laid st.map)
    (hrun : Steps (AddsMapping debug cfg) st calls st') :
    (st'.map.Pairwise fun r q => r.vspan.Apart q.vspan) ∧
    ∀ pa m va, physToVirt debug cfg st' pa m = .ok va → va ≠ 0 →
      ∃ r, physToVirtEntry st'.map pa m = some r ∧
        (r.pa ≠ 0 → coreVa2paHelper st'.map va = some pa) ∧
        (r.pa = 0 → r.size ≠ 0 → coreVa2paHelper st'.map va = some 0) := by
  have hend : Laid st'.map := by
    refine hrun.invariant (I := fun st => Laid st.map) ?_ hlaid
    intro mem _ st st' hstep
    exact hstep.laid
  refine ⟨hend.apart, ?_⟩
  intro pa m va hva hne
  have hva := physToVirt_ok hva
  cases hentry : physToVirtEntry st'.map pa m with
  | none =>
    rw [hentry] at hva
    exact absurd hva hne
  | some r =>
    obtain ⟨hr, hin⟩ := mem_of_physToVirtEntry hentry
    rw [hentry] at hva
    obtain rfl : va = r.va + pa - r.pa := hva.trans (if_pos hin)
    refine ⟨r, rfl, ?_, ?_⟩
    · intro hpa
      rw [hend.coreVa2paHelper_eq hr hin (Or.inl hpa), if_pos hpa]
    · intro hpa hsize
      rw [hend.coreVa2paHelper_eq hr hin (Or.inr hsize), if_neg (not_not_intro hpa)]

end Calls

/-- Code and data of the TEE, and registers of one device. -/
def bootMems : List PhysMem :=
  [⟨.teeRamRx, 0x4E000000, 0x8000⟩, ⟨.teeRamRw, 0x4E008000, 0x8000⟩, ⟨.ioSec, 0x02000000, 0x4000⟩]

/-- The kernel after `core_init_mmu_map`. -/
def bootMmu : Except Fault MmuState := do
  let map ← initMemMap insertionCfg bootMems []
  let tables ← coreInitMmuTables bootTables map fun _ _ => 0
  .ok { map := map, tables := tables }

theorem exists_ok_of {α ε : Type} {x : Except ε α} {P : α → Prop} (hsome : x.toOption.isSome = true)
    (h : ∀ a ∈ x.toOption, P a) : ∃ a, x = .ok a ∧ P a := by
  obtain ⟨a, rfl⟩ := exists_ok hsome
  exact ⟨a, rfl, h a rfl⟩

theorem initMemMap_of_bootMmu {st : MmuState} (h : bootMmu = .ok st) :
    initMemMap insertionCfg bootMems [] = .ok st.map := by
  obtain ⟨map, hmap, h⟩ := except_bind_ok h
  obtain ⟨tables, -, h⟩ := except_bind_ok h
  obtain rfl := Except.ok.inj h
  exact hmap

/-- Two devices are mapped after the boot. -/
theorem late_mappings_agree_two :
    ∃ st st', Steps (AddsMapping true bootTables) st
        [⟨.ioSec, 0x30000000, 0x4000⟩, ⟨.ioNsec, 0x30100000, 0x200000⟩] st' ∧
      st'.map.length = 7 ∧ st'.map.Pairwise fun r q => r.vspan.Apart q.vspan := by
  have hboot : bootMmu.toOption.isSome = true := by decide +kernel
  have hfirst : ∀ st ∈ bootMmu.toOption,
      (st.map.Pairwise fun r q => r.vspan.hi ≤ q.vspan.lo) ∧
      (∀ r ∈ st.map, 0 < r.va.toNat ∧ r.vspan.hi < 2 ^ 32) ∧
      MappingFits true bootTables st ⟨.ioSec, 0x30000000, 0x4000⟩ ∧
      (coreMmuAddMapping true bootTables st .ioSec 0x30000000 0x4000).toOption.isSome = true := by
    decide +kernel
  have hsecond : ∀ st ∈ bootMmu.toOption,
      ∀ ret ∈ (coreMmuAddMapping true bootTables st .ioSec 0x30000000 0x4000).toOption,
      MappingFits true bootTables ret.2 ⟨.ioNsec, 0x30100000, 0x200000⟩ ∧
      (coreMmuAddMapping true bootTables ret.2 .ioNsec 0x30100000 0x200000).toOption.isSome = true ∧
      ∀ ret' ∈ (coreMmuAddMapping true bootTables ret.2 .ioNsec 0x30100000 0x200000).toOption,
        ret'.2.map.length = 7 := by decide +kernel
  obtain ⟨st, hst⟩ := exists_ok hboot
  have hmem : st ∈ bootMmu.toOption := by
    rw [hst]
    rfl
  obtain ⟨hlaid, hbounds, hfits, hret⟩ := hfirst st hmem
  obtain ⟨ret, hret⟩ := exists_ok hret
  obtain ⟨hfits', hret', hlen⟩ := hsecond st hmem ret (by rw [hret]; rfl)
  obtain ⟨ret', hret'⟩ := exists_ok hret'
  have hrun : Steps (AddsMapping true bootTables) st
      [⟨.ioSec, 0x30000000, 0x4000⟩, ⟨.ioNsec, 0x30100000, 0x200000⟩] ret'.2 :=
    .cons ⟨hfits, ret.1, hret⟩ (.cons ⟨hfits', ret'.1, hret'⟩ (.nil _))
  refine ⟨st, ret'.2, hrun, hlen ret' (by rw [hret']; rfl), ?_⟩
  refine (late_mappings_agree ⟨?_, ?_, ?_⟩ hrun).1
  · exact hlaid.imp Span.apart_of_le
  · exact fun r hr => (hbounds r hr).1
  · exact fun r hr => (hbounds r hr).2

theorem not_apart_of_has {map : List MmapRegion} {x : Nat}
    (h : ∃ r ∈ map, ∃ q ∈ map, r ≠ q ∧ r.vspan.Has x ∧ q.vspan.Has x) :
    ¬ map.Pairwise fun r q => r.vspan.Apart q.vspan := by
  intro hapart
  obtain ⟨r, hr, q, hq, hne, hrx, hqx⟩ := h
  exact apart_of_ne hapart hr hq hne x hrx hqx

/-- A mapping of 16 MiB covers the reserved range of 10 MiB and the one behind it. A mapping of the
physical address zero is translated to zero, as a reserved range is. Where the placement wraps around,
the entries overlap before any call. -/
theorem late_mapping_overruns :
    (∃ st, bootMmu = .ok st ∧
      (∃ ret, coreMmuAddMapping true bootTables st .ioSec 0x30000000 0x1000000 = .ok ret ∧
        ret.1 = true ∧ ¬ ret.2.map.Pairwise fun r q => r.vspan.Apart q.vspan) ∧
      ∃ ret, coreMmuAddMapping true bootTables st .ioNsec 0 0x100000 = .ok ret ∧ ret.1 = true ∧
        ∃ va, physToVirt true bootTables ret.2 0x100 .ioNsec = .ok va ∧ va ≠ 0 ∧
          coreVa2paHelper ret.2.map va = some 0) ∧
    ∃ map, initMemMap insertionCfg [⟨.teeRamRw, 0x4E000000, 0x100000⟩,
        ⟨.ramNsec, 0x10000000, 0xB0000000⟩, ⟨.ramSec, 0x10000000, 0x80000000⟩] [] = .ok map ∧
      ¬ map.Pairwise fun r q => r.vspan.Apart q.vspan := by
  have hlong : ∀ st ∈ bootMmu.toOption,
      (coreMmuAddMapping true bootTables st .ioSec 0x30000000 0x1000000).toOption.isSome = true ∧
      ∀ ret ∈ (coreMmuAddMapping true bootTables st .ioSec 0x30000000 0x1000000).toOption,
        ret.1 = true ∧ ∃ r ∈ ret.2.map, ∃ q ∈ ret.2.map, r ≠ q ∧ r.vspan.Has 0x4EC00000 ∧
          q.vspan.Has 0x4EC00000 := by decide +kernel
  have hzero : ∀ st ∈ bootMmu.toOption,
      (coreMmuAddMapping true bootTables st .ioNsec 0 0x100000).toOption.isSome = true ∧
      ∀ ret ∈ (coreMmuAddMapping true bootTables st .ioNsec 0 0x100000).toOption,
        ret.1 = true ∧ physToVirt true bootTables ret.2 0x100 .ioNsec = .ok 0x4E200100 ∧
          coreVa2paHelper ret.2.map 0x4E200100 = some 0 := by decide +kernel
  refine ⟨exists_ok_of (by decide +kernel) ?_, exists_ok_of (by decide +kernel) ?_⟩
  · intro st hst
    refine ⟨exists_ok_of (hlong st hst).1 ?_, exists_ok_of (hzero st hst).1 ?_⟩
    · intro ret hret
      obtain ⟨htrue, hboth⟩ := (hlong st hst).2 ret hret
      exact ⟨htrue, not_apart_of_has hboth⟩
    · intro ret hret
      obtain ⟨htrue, hva, hpa⟩ := (hzero st hst).2 ret hret
      exact ⟨htrue, 0x4E200100, hva, by decide, hpa⟩
  · have hwrap : ∀ map ∈ (initMemMap insertionCfg [⟨.teeRamRw, 0x4E000000, 0x100000⟩,
        ⟨.ramNsec, 0x10000000, 0xB0000000⟩, ⟨.ramSec, 0x10000000, 0x80000000⟩] []).toOption,
        ∃ r ∈ map, ∃ q ∈ map, r ≠ q ∧ r.vspan.Has 0x7E100000 ∧ q.vspan.Has 0x7E100000 := by
      decide +kernel
    intro map hmap
    exact not_apart_of_has (hwrap map hmap)

end SeCloak
