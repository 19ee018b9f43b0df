import SeCloak.Mm.Buffers
import SeCloak.Mm.ByPa
import SeCloak.Mm.Regions

/-!
# Requests for a mapping (`core_mmu.c:857-920`)

A driver asks for its registers with `core_mmu_add_mapping` and takes the address of the first of them
from `phys_to_virt`. Whether the memory is mapped already is decided by the first entry of the type
that has its first address: a request that continues behind that entry is mapped anew, and is then
found through both.
-/

namespace SeCloak
open Misc

/-! ## The order of a lookup -/

/-- The entries in the order in which `phys_to_virt` looks at them. -/
def lookupOrder (map : List MmapRegion) (m : MemType) : List MmapRegion :=
  match m with
  | .teeRam | .teeRamRx | .teeRamRo | .teeRamRw =>
    map.filter (·.type = .teeRam) ++ map.filter (·.type = .teeRamRw) ++
      map.filter (·.type = .teeRamRo) ++ map.filter (·.type = .teeRamRx)
  | _ => map.filter (·.type = m)

/-- The first entry in that order that has the address. -/
def FirstAt (map : List MmapRegion) (m : MemType) (pa : Word) (r : MmapRegion) : Prop :=
  ∃ front back, lookupOrder map m = front ++ r :: back ∧ r.paIsIn pa = true ∧
    ∀ q ∈ front, q.paIsIn pa = false

/-- All addresses of the request are served at the same distance, and none at virtual address
zero. -/
structure OneDistance (map : List MmapRegion) (type : MemType) (addr len d : Word) : Prop where
  same : ∀ i < len, ∀ r, FirstAt map type (addr + i) r → r.va - r.pa = d
  nonnull : ∀ i < len, addr + i + d ≠ 0

/-- The first entry of the type that has the first address of the request has all of it. -/
def HoldsFirst (map : List MmapRegion) (type : MemType) (addr len : Word) : Prop :=
  ∃ front r back, map = front ++ r :: back ∧ r.type = type ∧
    (r.pa.toNat ≤ addr.toNat ∧ addr.toNat + len.toNat ≤ r.pspan.hi ∧ r.pspan.hi ≤ 2 ^ 32) ∧
    ∀ q ∈ front, q.type = type → q.paIsIn addr = false

section Order

variable {map : List MmapRegion} {m type : MemType} {r q : MmapRegion} {pa addr len d i : Word}

theorem findMapByTypeAndPa_eq_filter :
    findMapByTypeAndPa map type pa = (map.filter (·.type = type)).find? (·.paIsIn pa) := by
  simp [findMapByTypeAndPa, List.find?_filter]

theorem orElse_eq_or {α : Type} (a b : Option α) : (a.orElse fun _ => b) = a.or b := by
  cases a <;> rfl

theorem physToVirtEntry_eq : physToVirtEntry map pa m = (lookupOrder map m).find? (·.paIsIn pa) := by
  cases m with
  | teeRam | teeRamRx | teeRamRo | teeRamRw =>
    rw [lookupOrder, List.find?_append, List.find?_append, List.find?_append]
    simp only [physToVirtEntry, findMapByTypeAndPa_eq_filter, orElse_eq_or]
  | _ => exact findMapByTypeAndPa_eq_filter

theorem physToVirtEntry_eq_some_iff : physToVirtEntry map pa m = some r ↔ FirstAt map m pa r := by
  have hnot : ∀ q : MmapRegion, (!q.paIsIn pa) = true ↔ q.paIsIn pa = false := by
    intro q
    rw [Bool.not_eq_true']
  rw [physToVirtEntry_eq, List.find?_eq_some_iff_append]
  simp only [hnot, FirstAt]
  constructor
  · rintro ⟨hin, front, back, hsplit, hfront⟩
    exact ⟨front, back, hsplit, hin, hfront⟩
  · rintro ⟨front, back, hsplit, hin, hfront⟩
    exact ⟨hin, front, back, hsplit, hfront⟩

/-- Every entry of the type is looked at. -/
theorem mem_lookupOrder (hr : r ∈ map) (htype : r.type = m) : r ∈ lookupOrder map m := by
  have hmem : r ∈ map.filter (·.type = m) := List.mem_filter.mpr ⟨hr, decide_eq_true htype⟩
  cases m with
  | teeRam => exact List.mem_append_left _ (List.mem_append_left _ (List.mem_append_left _ hmem))
  | teeRamRw => exact List.mem_append_left _ (List.mem_append_left _ (List.mem_append_right _ hmem))
  | teeRamRo => exact List.mem_append_left _ (List.mem_append_right _ hmem)
  | teeRamRx => exact List.mem_append_right _ hmem
  | _ => exact hmem

theorem exists_firstAt (hr : r ∈ map) (htype : r.type = m) (hin : r.paIsIn pa = true) :
    ∃ q, FirstAt map m pa q := by
  cases hfind : physToVirtEntry map pa m with
  | some q => exact ⟨q, physToVirtEntry_eq_some_iff.mp hfind⟩
  | none =>
    rw [physToVirtEntry_eq, List.find?_eq_none] at hfind
    exact absurd hin (hfind r (mem_lookupOrder hr htype))

theorem FirstAt.physToVirt {cfg : XlatCfg} {st : MmuState} (h : FirstAt st.map m pa r) :
    physToVirt false cfg st pa m = .ok (pa + (r.va - r.pa)) := by
  have hin := h.choose_spec.choose_spec.2.1
  have hva : mapPa2va (physToVirtEntry st.map pa m) pa = pa + (r.va - r.pa) := by
    rw [physToVirtEntry_eq_some_iff.mpr h, mapPa2va, if_pos hin]
    bv_omega
  rw [← hva]
  cases m <;> rfl

end Order

/-! ## Whether a request is held -/

section Held

variable {debug : Bool} {cfg : XlatCfg} {st st' : MmuState} {map : List MmapRegion} {type : MemType}
  {r : MmapRegion} {addr len d : Word}

theorem ne_zero_of_pos (h : 0 < len) : len ≠ 0 := by
  rintro rfl
  exact absurd h (by decide)

/-- The test of `core_mmu_add_mapping` for a request that does not wrap. -/
theorem coreIsBufferInside_region (hlen : 0 < len) (hend : addr.toNat + len.toNat ≤ 2 ^ 32) :
    coreIsBufferInside addr len r.pa r.size = true ↔
      r.pa.toNat ≤ addr.toNat ∧ addr.toNat + len.toNat ≤ r.pspan.hi ∧ r.pspan.hi ≤ 2 ^ 32 := by
  have hpos : 0 < len.toNat := hlen
  change _ ↔ r.pa.toNat ≤ addr.toNat ∧ addr.toNat + len.toNat ≤ r.pa.toNat + r.size.toNat ∧
    r.pa.toNat + r.size.toNat ≤ 2 ^ 32
  constructor
  · intro h
    simp only [coreIsBufferInside, isValidConfAndNotnullSize, Bool.and_eq_true, Bool.not_eq_true',
      Bool.or_eq_false_iff, decide_eq_false_iff_not, BitVec.not_lt, decide_eq_true_iff] at h
    obtain ⟨⟨⟨⟨⟨hwrap, hwrap'⟩, hlen'⟩, hsize⟩, hlo⟩, hhi⟩ := h
    bv_omega
  · rintro ⟨hlo, hhi, hfits⟩
    have hbuf : Buffered addr len := ⟨hlen, hend⟩
    have hregion : Buffered r.pa r.size := by
      refine ⟨?_, hfits⟩
      change 0 < r.size.toNat
      omega
    refine (coreIsBufferInside_iff hbuf hregion).mpr ?_
    rintro x ⟨hx, hx'⟩
    exact ⟨Nat.le_trans hlo hx, Nat.lt_of_lt_of_le hx' hhi⟩

theorem paIsIn_of_holds {i : Word} (hi : i < len) (hlo : r.pa.toNat ≤ addr.toNat)
    (hhi : addr.toNat + len.toNat ≤ r.pspan.hi) (hfits : r.pspan.hi ≤ 2 ^ 32) :
    r.paIsIn (addr + i) = true := by
  have hlt : i.toNat < len.toNat := hi
  have hadd : (addr + i).toNat = addr.toNat + i.toNat := BitVec.toNat_add_of_lt (by omega)
  refine MmapRegion.paIsIn_iff.mpr (Or.inl ⟨⟨?_, ?_⟩, hfits⟩)
  · rw [hadd]
    exact Nat.le_trans hlo (Nat.le_add_right _ _)
  · rw [hadd]
    omega

theorem holdsFirst_iff (hlen : 0 < len) (hend : addr.toNat + len.toNat ≤ 2 ^ 32) :
    (findMapByTypeAndPa map type addr).any (fun r => coreIsBufferInside addr len r.pa r.size) = true ↔
      HoldsFirst map type addr len := by
  constructor
  · intro h
    cases hfind : findMapByTypeAndPa map type addr with
    | none =>
      rw [hfind] at h
      cases h
    | some r =>
      rw [hfind] at h
      obtain ⟨⟨htype, -⟩, front, back, hsplit, hfront⟩ := findMapByTypeAndPa_eq_some_iff.mp hfind
      exact ⟨front, r, back, hsplit, htype, (coreIsBufferInside_region hlen hend).mp h, hfront⟩
  · rintro ⟨front, r, back, hsplit, htype, hholds, hfront⟩
    have hin : r.paIsIn addr = true := by
      simpa using paIsIn_of_holds hlen hholds.1 hholds.2.1 hholds.2.2
    rw [findMapByTypeAndPa_eq_some_iff.mpr ⟨⟨htype, hin⟩, front, back, hsplit, hfront⟩]
    exact (coreIsBufferInside_region hlen hend).mpr hholds

theorem planMapping_of_holdsFirst (hlen : 0 < len) (hend : addr.toNat + len.toNat ≤ 2 ^ 32)
    (h : HoldsFirst st.map type addr len) :
    planMapping debug cfg st type addr len = .ok (.done true) := by
  rw [planMapping, if_neg (ne_zero_of_pos hlen), if_pos ((holdsFirst_iff hlen hend).mpr h)]

/-- What a call looks up before it cuts a mapping off the reserved range `res`. -/
structure Cuts (debug : Bool) (cfg : XlatCfg) (st : MmuState) (type : MemType) (addr len : Word)
    (res : MmapRegion) (info : CoreMmuTableInfo) : Prop where
  missing : ¬ HoldsFirst st.map type addr len
  reserved : findMapByType st.map .resVaspace = some res
  table : coreMmuFindTable debug cfg st res.va 0xFFFFFFFF = .ok (some info)

/-- There is one reserved range, in one table. -/
theorem Cuts.unique {res res' : MmapRegion} {info info' : CoreMmuTableInfo}
    (h : Cuts debug cfg st type addr len res info) (h' : Cuts debug cfg st type addr len res' info') :
    res' = res ∧ info' = info := by
  obtain rfl := Option.some.inj (h.reserved.symm.trans h'.reserved)
  exact ⟨rfl, (Option.some.inj (Except.ok.inj (h.table.symm.trans h'.table))).symm⟩

/-- The new entry of a call. -/
def newRegion (res : MmapRegion) (info : CoreMmuTableInfo) (type : MemType) (attr addr len : Word) :
    MmapRegion :=
  { type := type, regionSize := info.granule, pa := info.start addr, va := res.va
    size := info.length addr len, attr := attr }

/-- A call that returns true had nothing to do, or it entered a new mapping. -/
theorem addMapping_cases (hlen : 0 < len) (hend : addr.toNat + len.toNat ≤ 2 ^ 32)
    (hrun : coreMmuAddMapping debug cfg st type addr len = .ok (true, st')) :
    (HoldsFirst st.map type addr len ∧ st' = st) ∨
      ∃ res info attr, Cuts debug cfg st type addr len res info ∧ coreMmuTypeToAttr type = .ok attr ∧
        st'.map = (cutMapping st.map res type info.granule attr (info.start addr)
          (info.length addr len)).1 ∧
        setRegion debug cfg info (newRegion res info type attr addr len) st.tables = .ok st'.tables := by
  by_cases hheld : HoldsFirst st.map type addr len
  · rw [coreMmuAddMapping, planMapping_of_holdsFirst hlen hend hheld] at hrun
    cases hrun
    exact Or.inl ⟨hheld, rfl⟩
  · refine Or.inr ?_
    obtain ⟨plan, hplan, hrun⟩ := except_bind_ok hrun
    rw [planMapping, if_neg (ne_zero_of_pos hlen),
      if_neg (fun h => hheld ((holdsFirst_iff hlen hend).mp h))] at hplan
    cases hres : findMapByType st.map .resVaspace with
    | none =>
      rw [hres] at hplan
      cases hplan
      cases hrun
    | some res =>
      rw [hres] at hplan
      obtain ⟨found, hfound, hplan⟩ := except_bind_ok hplan
      cases found with
      | none =>
        cases hplan
        cases hrun
      | some info =>
        dsimp only at hplan
        split at hplan
        · cases hplan
          cases hrun
        · cases hplan
          obtain ⟨attr, hattr, hrun⟩ := except_bind_ok hrun
          have hregion : (cutMapping st.map res type info.granule attr (info.start addr)
              (info.length addr len)).2 = newRegion res info type attr addr len := by
            unfold cutMapping
            dsimp only
            split <;> rfl
          refine ⟨res, info, attr, ⟨hheld, hres, hfound⟩, hattr, ?_⟩
          rcases hcut : cutMapping st.map res type info.granule attr (info.start addr)
            (info.length addr len) with ⟨map, region⟩
          rw [hcut] at hrun hregion
          obtain rfl : region = newRegion res info type attr addr len := hregion
          obtain ⟨tables, htables, hdone⟩ := except_bind_ok hrun
          cases hdone
          exact ⟨rfl, htables⟩

end Held

/-! ## The new mapping -/

section Cut

variable {debug : Bool} {cfg : XlatCfg} {st : MmuState} {info : CoreMmuTableInfo}
  {map : List MmapRegion} {res r : MmapRegion} {type : MemType} {addr len va granule attr p l d : Word}

/-- A mapping is the request rounded to the granule. Its length wraps to zero for a request that
reaches from the first granule into the last. -/
theorem length_cases (hshift : info.shift = 20 ∨ info.shift = 12) (hlen : 0 < len)
    (hend : addr.toNat + len.toNat ≤ 2 ^ 32) :
    ((info.start addr).toNat ≤ addr.toNat ∧
      addr.toNat + len.toNat ≤ (info.start addr).toNat + (info.length addr len).toNat ∧
      (info.start addr).toNat + (info.length addr len).toNat ≤ 2 ^ 32) ∨
    (info.length addr len = 0 ∧ info.start addr = 0 ∧ addr.toNat < 2 ^ info.shift ∧
      2 ^ 32 < addr.toNat + len.toNat + 2 ^ info.shift) := by
  have hpos : 0 < len.toNat := hlen
  have hk : info.shift < 32 := by omega
  have hgranule : info.granule = BitVec.twoPow 32 info.shift := by
    rw [CoreMmuTableInfo.granule, BitVec.twoPow_eq]
    rfl
  have hstart : (info.start addr).toNat = addr.toNat / 2 ^ info.shift * 2 ^ info.shift := by
    rw [CoreMmuTableInfo.start, hgranule, toNat_roundDown addr hk]
  have hpow : (BitVec.twoPow 32 info.shift - 1).toNat = 2 ^ info.shift - 1 := by
    rcases hshift with h | h <;> rw [h] <;> rfl
  have hlength : (info.length addr len).toNat =
      ((len + addr - info.start addr).toNat + (2 ^ info.shift - 1)) % 2 ^ 32 / 2 ^ info.shift *
        2 ^ info.shift := by
    rw [CoreMmuTableInfo.length, hgranule]
    change (roundDown (len + addr - info.start addr + (BitVec.twoPow 32 info.shift - 1))
      (BitVec.twoPow 32 info.shift)).toNat = _
    rw [toNat_roundDown _ hk, BitVec.toNat_add, hpow]
  have hrest : (len + addr - info.start addr).toNat =
      (addr.toNat + len.toNat - (info.start addr).toNat) % 2 ^ 32 := by
    rw [BitVec.toNat_sub, BitVec.toNat_add]
    rcases hshift with h | h <;> rw [h] at hstart <;> omega
  have hzero : ∀ v : Word, v = 0 ↔ v.toNat = 0 := fun v => BitVec.toNat_inj.symm
  rw [hzero, hzero, hlength, hrest, hstart]
  rcases hshift with h | h <;> rw [h] <;> omega

theorem length_changeReserved (f : MmapRegion → MmapRegion) :
    (changeReserved f map).length = map.length := by
  induction map with
  | nil => rfl
  | cons r rs ih =>
    rw [changeReserved]
    split
    · rfl
    · rw [List.length_cons, ih, List.length_cons]

theorem eq_of_changeReserved_eq (hres : findMapByType map .resVaspace = some res)
    (h : changeReserved (fun _ => r) map = map) : r = res := by
  induction map with
  | nil => cases hres
  | cons q rs ih =>
    unfold findMapByType at hres ih
    rw [changeReserved] at h
    by_cases htype : q.type = .resVaspace
    · rw [List.find?_cons_of_pos (by simp [htype])] at hres
      rw [if_pos htype] at h
      obtain rfl := Option.some.inj hres
      exact (List.cons.inj h).1
    · rw [List.find?_cons_of_neg (by simp [htype])] at hres
      rw [if_neg htype] at h
      exact ih hres (List.cons.inj h).2

/-- A map that a mapping changes to itself has it as its reserved range. -/
theorem eq_of_cutMapping_eq (hres : findMapByType map .resVaspace = some res)
    (h : (cutMapping map res type granule attr p l).1 = map) :
    res = { type := type, regionSize := granule, pa := p, va := res.va, size := l, attr := attr } := by
  unfold cutMapping at h
  dsimp only at h
  split at h
  · have hlength := congrArg List.length h
    rw [List.length_append, length_changeReserved] at hlength
    exact absurd hlength (Nat.succ_ne_self _)
  · exact (eq_of_changeReserved_eq hres h).symm

theorem findMapByType_split (hres : findMapByType map type = some r) :
    r.type = type ∧ ∃ front back, map = front ++ r :: back ∧ ∀ q ∈ front, q.type ≠ type := by
  unfold findMapByType at hres
  obtain ⟨htype, front, back, hsplit, hfront⟩ := List.find?_eq_some_iff_append.mp hres
  exact ⟨of_decide_eq_true htype, front, back, hsplit, fun q hq => by simpa using hfront q hq⟩

/-- The entries that come before a new mapping of `l` bytes: all of them, with the reserved range less its
first `l` bytes, or those before the reserved range if that one is given up. -/
def aheadOfNew (map : List MmapRegion) (l : Word) : List MmapRegion :=
  if map.length < mmapEntries - 1 then
    changeReserved (fun r => { r with va := r.va + l, size := r.size - l }) map
  else map.takeWhile (·.type ≠ .resVaspace)

/-- The entries that come behind a new mapping: those behind the reserved range if that one is given up. -/
def behindNew (map : List MmapRegion) : List MmapRegion :=
  if map.length < mmapEntries - 1 then [] else (map.dropWhile (·.type ≠ .resVaspace)).tail

/-- The types that `phys_to_virt` tries before a type. -/
def triedBefore : MemType → List MemType
  | .teeRamRw => [.teeRam]
  | .teeRamRo => [.teeRam, .teeRamRw]
  | .teeRamRx => [.teeRam, .teeRamRw, .teeRamRo]
  | _ => []

/-- The entries that `phys_to_virt` looks at before a new mapping of `l` bytes. -/
def lookupBefore (map : List MmapRegion) (l : Word) (type : MemType) : List MmapRegion :=
  (triedBefore type).flatMap (fun t => map.filter (·.type = t)) ++
    (aheadOfNew map l).filter (·.type = type)

theorem filter_changeReserved {t : MemType} {f : MmapRegion → MmapRegion}
    (hf : ∀ r, r.type = .resVaspace → (f r).type ≠ t) (ht : t ≠ .resVaspace) :
    (changeReserved f map).filter (·.type = t) = map.filter (·.type = t) := by
  induction map with
  | nil => rfl
  | cons r rs ih =>
    rw [changeReserved]
    split
    · rename_i hr
      rw [List.filter_cons_of_neg (by simp [hf r hr]),
        List.filter_cons_of_neg (by simp [hr, ht.symm])]
    · rw [List.filter_cons, List.filter_cons, ih]

theorem changeReserved_const (hres : findMapByType map .resVaspace = some res) :
    changeReserved (fun _ => r) map =
      map.takeWhile (·.type ≠ .resVaspace) ++ r :: (map.dropWhile (·.type ≠ .resVaspace)).tail := by
  induction map with
  | nil => cases hres
  | cons q rs ih =>
    unfold findMapByType at hres ih
    rw [changeReserved]
    by_cases htype : q.type = .resVaspace
    · rw [if_pos htype, List.takeWhile_cons_of_neg (by simp [htype]),
        List.dropWhile_cons_of_neg (by simp [htype])]
      rfl
    · rw [List.find?_cons_of_neg (by simp [htype])] at hres
      rw [if_neg htype, List.takeWhile_cons_of_pos (by simp [htype]),
        List.dropWhile_cons_of_pos (by simp [htype]), ih hres]
      rfl

/-- The new mapping stands between what comes before it and what comes behind it. -/
theorem cutMapping_split (hres : findMapByType map .resVaspace = some res) :
    (cutMapping map res type info.granule attr (info.start addr) (info.length addr len)).1 =
      aheadOfNew map (info.length addr len) ++ newRegion res info type attr addr len ::
        behindNew map := by
  unfold cutMapping aheadOfNew behindNew
  dsimp only
  split
  · rfl
  · exact changeReserved_const hres

/-- A new mapping does not change the entries of the other types. -/
theorem filter_cutMapping {t : MemType} (hne : t ≠ type) (ht : t ≠ .resVaspace) :
    (cutMapping map res type granule attr p l).1.filter (·.type = t) = map.filter (·.type = t) := by
  unfold cutMapping
  dsimp only
  split
  · rw [List.filter_append, filter_changeReserved (fun r hr => by simpa [hr] using ht.symm) ht,
      List.filter_cons_of_neg (by simpa using hne.symm), List.filter_nil, List.append_nil]
  · exact filter_changeReserved (fun _ _ => hne.symm) ht

/-- The new mapping is looked at after `lookupBefore`. -/
theorem lookupOrder_cut (hres : findMapByType map .resVaspace = some res) :
    ∃ after, lookupOrder
        (cutMapping map res type info.granule attr (info.start addr) (info.length addr len)).1 type =
      lookupBefore map (info.length addr len) type ++ newRegion res info type attr addr len :: after := by
  have hsplit := @cutMapping_split info map res type addr len attr hres
  have hown : (cutMapping map res type info.granule attr (info.start addr)
      (info.length addr len)).1.filter (·.type = type) =
      (aheadOfNew map (info.length addr len)).filter (·.type = type) ++
        newRegion res info type attr addr len :: (behindNew map).filter (·.type = type) := by
    rw [hsplit, List.filter_append, List.filter_cons_of_pos (by simp [newRegion])]
  have hother : ∀ t, t ≠ type → t ≠ .resVaspace → (cutMapping map res type info.granule attr
      (info.start addr) (info.length addr len)).1.filter (·.type = t) = map.filter (·.type = t) :=
    fun t => filter_cutMapping
  unfold lookupOrder lookupBefore
  generalize (cutMapping map res type info.granule attr (info.start addr) (info.length addr len)).1 =
    map' at hown hother
  cases type with
  | teeRam =>
    rw [hown]
    exact ⟨(behindNew map).filter (·.type = .teeRam) ++ (map'.filter (·.type = .teeRamRw) ++
      (map'.filter (·.type = .teeRamRo) ++ map'.filter (·.type = .teeRamRx))), by simp [triedBefore]⟩
  | teeRamRw =>
    rw [hown, hother .teeRam (by decide) (by decide)]
    exact ⟨(behindNew map).filter (·.type = .teeRamRw) ++ (map'.filter (·.type = .teeRamRo) ++
      map'.filter (·.type = .teeRamRx)), by simp [triedBefore]⟩
  | teeRamRo =>
    rw [hown, hother .teeRam (by decide) (by decide), hother .teeRamRw (by decide) (by decide)]
    exact ⟨(behindNew map).filter (·.type = .teeRamRo) ++ map'.filter (·.type = .teeRamRx),
      by simp [triedBefore]⟩
  | teeRamRx =>
    rw [hown, hother .teeRam (by decide) (by decide), hother .teeRamRw (by decide) (by decide),
      hother .teeRamRo (by decide) (by decide)]
    exact ⟨(behindNew map).filter (·.type = .teeRamRx), by simp [triedBefore]⟩
  | _ => exact ⟨_, hown⟩

/-- The new mapping has all addresses of its request. -/
theorem newRegion_paIsIn (hshift : info.shift = 20 ∨ info.shift = 12)
    (hend : addr.toNat + len.toNat ≤ 2 ^ 32) {i : Word} (hi : i < len) :
    (newRegion res info type attr addr len).paIsIn (addr + i) = true := by
  have hlen : 0 < len := by
    have hlt : i.toNat < len.toNat := hi
    change 0 < len.toNat
    omega
  rcases length_cases hshift hlen hend with ⟨hlo, hhi, hfits⟩ | ⟨hzero, hstart, -⟩
  · exact paIsIn_of_holds hi hlo hhi hfits
  · exact MmapRegion.paIsIn_iff.mpr (Or.inr ⟨hstart, hzero⟩)

/-- With a new mapping the request is held just if an entry before it holds it, or if none of these has
its first address and the rounded length does not wrap. -/
theorem holdsFirst_cut_iff (hres : findMapByType map .resVaspace = some res)
    (hshift : info.shift = 20 ∨ info.shift = 12) (hlen : 0 < len)
    (hend : addr.toNat + len.toNat ≤ 2 ^ 32) :
    HoldsFirst (cutMapping map res type info.granule attr (info.start addr)
        (info.length addr len)).1 type addr len ↔
      HoldsFirst (aheadOfNew map (info.length addr len)) type addr len ∨
        ((∀ q ∈ aheadOfNew map (info.length addr len), q.type = type → q.paIsIn addr = false) ∧
          info.length addr len ≠ 0) := by
  have hsplit := @cutMapping_split info map res type addr len attr hres
  have hin : (newRegion res info type attr addr len).paIsIn addr = true := by
    simpa using @newRegion_paIsIn info res type addr len attr hshift hend 0 hlen
  have hfind : findMapByTypeAndPa (aheadOfNew map (info.length addr len) ++
      newRegion res info type attr addr len :: behindNew map) type addr =
      some ((findMapByTypeAndPa (aheadOfNew map (info.length addr len)) type addr).getD
        (newRegion res info type attr addr len)) :=
    findMapByTypeAndPa_append_cons (r := newRegion res info type attr addr len) hin
  rw [hsplit, ← holdsFirst_iff hlen hend, ← holdsFirst_iff hlen hend, hfind]
  generalize aheadOfNew map (info.length addr len) = ahead at hfind
  cases hahead : findMapByTypeAndPa ahead type addr with
  | some q =>
    obtain ⟨⟨htype, hqin⟩, -⟩ := findMapByTypeAndPa_eq_some_iff.mp hahead
    refine ⟨Or.inl, fun h => h.resolve_right fun ⟨hnone, _⟩ => ?_⟩
    rw [hnone q (List.mem_of_find?_eq_some hahead) htype] at hqin
    cases hqin
  | none =>
    have hnone : ∀ q ∈ ahead, q.type = type → q.paIsIn addr = false := by
      intro q hq hqtype
      unfold findMapByTypeAndPa at hahead
      have hneg := List.find?_eq_none.mp hahead q hq
      rw [hqtype] at hneg
      simpa using hneg
    refine (@coreIsBufferInside_region (newRegion res info type attr addr len) addr len hlen hend).trans ?_
    change (info.start addr).toNat ≤ _ ∧ _ ≤ (info.start addr).toNat + (info.length addr len).toNat ∧
      (info.start addr).toNat + (info.length addr len).toNat ≤ _ ↔ _
    have hpos : 0 < len.toNat := hlen
    have hnull : (0 : Word).toNat = 0 := rfl
    rcases length_cases hshift hlen hend with hheld | ⟨hzero, hstart, hlo, hhi⟩
    · refine iff_of_true hheld (Or.inr ⟨hnone, ?_⟩)
      intro hzero
      rw [hzero, hnull] at hheld
      omega
    · refine iff_of_false ?_ fun h => ?_
      · rw [hzero, hstart, hnull]
        omega
      · rcases h with h | h
        · cases h
        · exact h.2 hzero

/-- What serves an address with a new mapping: the first of `lookupBefore` that has it, or the new
mapping. -/
theorem physToVirtEntry_cut (hres : findMapByType map .resVaspace = some res)
    (hshift : info.shift = 20 ∨ info.shift = 12) (hend : addr.toNat + len.toNat ≤ 2 ^ 32) {i : Word}
    (hi : i < len) :
    physToVirtEntry (cutMapping map res type info.granule attr (info.start addr)
        (info.length addr len)).1 (addr + i) type =
      ((lookupBefore map (info.length addr len) type).find? (·.paIsIn (addr + i))).or
        (some (newRegion res info type attr addr len)) := by
  obtain ⟨after, horder⟩ := @lookupOrder_cut info map res type addr len attr hres
  have hin := @newRegion_paIsIn info res type addr len attr hshift hend i hi
  rw [physToVirtEntry_eq, horder, List.find?_append, List.find?_cons_of_pos (by exact hin)]

/-- With a new mapping the addresses of the request are served at one distance just if the entries before
it serve them at that distance and it has this distance itself, unless they serve all of them. -/
theorem oneDistance_cut_iff (hres : findMapByType map .resVaspace = some res)
    (hshift : info.shift = 20 ∨ info.shift = 12) (hend : addr.toNat + len.toNat ≤ 2 ^ 32) :
    OneDistance (cutMapping map res type info.granule attr (info.start addr)
        (info.length addr len)).1 type addr len d ↔
      (∀ i < len, ∀ q,
        (lookupBefore map (info.length addr len) type).find? (·.paIsIn (addr + i)) = some q →
          q.va - q.pa = d) ∧
      (∀ i < len, (lookupBefore map (info.length addr len) type).find? (·.paIsIn (addr + i)) = none →
        res.va - info.start addr = d) ∧ ∀ i < len, addr + i + d ≠ 0 := by
  have hentry := fun i hi =>
    @physToVirtEntry_cut info map res type addr len attr hres hshift hend i hi
  constructor
  · intro h
    refine ⟨fun i hi q hq => h.same i hi q ?_, fun i hi hnone => ?_, h.nonnull⟩
    · rw [← physToVirtEntry_eq_some_iff, hentry i hi, hq]
      rfl
    · refine h.same i hi (newRegion res info type attr addr len) ?_
      rw [← physToVirtEntry_eq_some_iff, hentry i hi, hnone]
      rfl
  · rintro ⟨hserved, hunserved, hnonnull⟩
    refine ⟨fun i hi r hr => ?_, hnonnull⟩
    rw [← physToVirtEntry_eq_some_iff, hentry i hi] at hr
    cases hfind : (lookupBefore map (info.length addr len) type).find? (·.paIsIn (addr + i)) with
    | some q =>
      rw [hfind] at hr
      obtain rfl := Option.some.inj hr
      exact hserved i hi q hfind
    | none =>
      rw [hfind] at hr
      obtain rfl := Option.some.inj hr
      exact hunserved i hi hfind

end Cut

end SeCloak
