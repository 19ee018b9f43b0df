import SeCloak.Mm.Requests

/-!
# Requests that are granted (`core_mmu.c:857-920`)

A request that was granted is usable if the entries that serve its addresses have one distance, and a
second call finds it if one entry has all of it. Both are decided by the map before the call, and the
asserts of `phys_to_virt` by the tables before it.
-/

namespace SeCloak
open Misc

/-! ## Using what was granted -/

/-- `phys_to_virt` counts along with the addresses of the request. -/
def Usable (debug : Bool) (cfg : XlatCfg) (st : MmuState) (type : MemType) (addr len : Word) : Prop :=
  ∃ va, ∀ i < len, physToVirt debug cfg st (addr + i) type = .ok (va + i) ∧ va + i ≠ 0

/-- The addresses of the request lead back from the distance `d`, in the tables and in the map, where an
entry may show null. -/
structure LedBack (cfg : XlatCfg) (st : MmuState) (addr len d : Word) : Prop where
  hardware : ∀ i < len, (armVa2paHelper cfg st.tables (addr + i + d)).getD 0 = addr + i
  shown : ∀ i < len, ∀ p, coreVa2paHelper st.map (addr + i + d) = some p → p = 0 ∨ p = addr + i
  missing : ∀ i < len, coreVa2paHelper st.map (addr + i + d) = none → addr + i = 0

section Use

variable {debug : Bool} {cfg : XlatCfg} {st : MmuState} {map : List MmapRegion} {m type : MemType}
  {addr len pa va d : Word}

theorem physToVirt_true_iff : physToVirt true cfg st pa m = .ok va ↔
    physToVirt false cfg st pa m = .ok va ∧ checkVaMatchesPa true cfg st pa va = .ok () := by
  have hva : ∃ w, ∀ debug, physToVirt debug cfg st pa m =
      (do checkVaMatchesPa debug cfg st pa w; .ok w) := ⟨_, fun _ => rfl⟩
  obtain ⟨w, hw⟩ := hva
  have hfalse : physToVirt false cfg st pa m = .ok w := hw false
  rw [hfalse, hw true]
  constructor
  · intro h
    obtain ⟨_, hcheck, h⟩ := except_bind_ok h
    obtain rfl := Except.ok.inj h
    exact ⟨rfl, hcheck⟩
  · rintro ⟨h, hcheck⟩
    obtain rfl := Except.ok.inj h
    rw [hcheck]
    rfl

theorem checkPaMatchesVa_ok_iff : checkPaMatchesVa true map va pa = .ok () ↔
    (∀ p, coreVa2paHelper map va = some p → p = 0 ∨ p = pa) ∧
      (coreVa2paHelper map va = none → pa = 0) := by
  unfold checkPaMatchesVa
  rw [if_pos rfl]
  cases coreVa2paHelper map va with
  | none => by_cases hpa : pa = 0 <;> simp [hpa]
  | some p =>
    dsimp only
    by_cases hbad : p ≠ 0 ∧ pa ≠ p
    · rw [if_pos hbad]
      refine iff_of_false (fun h => by cases h) fun h => ?_
      rcases h.1 p rfl with hzero | heq
      · exact hbad.1 hzero
      · exact hbad.2 heq.symm
    · rw [if_neg hbad]
      refine iff_of_true rfl ⟨fun q hq => ?_, fun h => by cases h⟩
      obtain rfl := Option.some.inj hq
      by_cases hzero : p = 0
      · exact Or.inl hzero
      · exact Or.inr (by_contra fun hne => hbad ⟨hzero, fun h => hne h.symm⟩)

theorem checkVaMatchesPa_ok_iff (hva : va ≠ 0) : checkVaMatchesPa true cfg st pa va = .ok () ↔
    (armVa2paHelper cfg st.tables va).getD 0 = pa ∧ checkPaMatchesVa true st.map va pa = .ok () := by
  unfold checkVaMatchesPa virtToPhys
  rw [if_pos ⟨rfl, hva⟩]
  generalize (armVa2paHelper cfg st.tables va).getD 0 = hardware
  constructor
  · intro h
    obtain ⟨p, hp, h⟩ := except_bind_ok h
    obtain ⟨_, hcheck, hp⟩ := except_bind_ok hp
    obtain rfl := Except.ok.inj hp
    by_cases hpa : hardware = pa
    · subst hpa
      exact ⟨rfl, hcheck⟩
    · rw [if_pos hpa] at h
      cases h
  · rintro ⟨rfl, hcheck⟩
    dsimp only
    rw [hcheck]
    exact if_neg (not_not_intro rfl)

/-- The assert of `phys_to_virt` passes for addresses that lead back. -/
theorem ledBack_iff (hne : ∀ i < len, addr + i + d ≠ 0) : LedBack cfg st addr len d ↔
    ∀ i < len, checkVaMatchesPa true cfg st (addr + i) (addr + i + d) = .ok () := by
  have hcheck : ∀ i < len, checkVaMatchesPa true cfg st (addr + i) (addr + i + d) = .ok () ↔
      (armVa2paHelper cfg st.tables (addr + i + d)).getD 0 = addr + i ∧
        (∀ p, coreVa2paHelper st.map (addr + i + d) = some p → p = 0 ∨ p = addr + i) ∧
          (coreVa2paHelper st.map (addr + i + d) = none → addr + i = 0) := by
    intro i hi
    rw [checkVaMatchesPa_ok_iff (hne i hi), checkPaMatchesVa_ok_iff]
  constructor
  · intro h i hi
    exact (hcheck i hi).mpr ⟨h.hardware i hi, h.shown i hi, h.missing i hi⟩
  · intro h
    exact ⟨fun i hi => ((hcheck i hi).mp (h i hi)).1, fun i hi => ((hcheck i hi).mp (h i hi)).2.1,
      fun i hi => ((hcheck i hi).mp (h i hi)).2.2⟩

/-- Counting along is being served at a distance. -/
theorem usable_iff_distance : Usable debug cfg st type addr len ↔
    ∃ d, ∀ i < len, physToVirt debug cfg st (addr + i) type = .ok (addr + i + d) ∧ addr + i + d ≠ 0 := by
  have hcomm : ∀ d i : Word, addr + i + d = addr + d + i := by
    intro d i
    bv_omega
  constructor
  · rintro ⟨va, hva⟩
    have hsum : ∀ i, addr + i + (va - addr) = va + i := by
      intro i
      bv_omega
    refine ⟨va - addr, fun i hi => ?_⟩
    rw [hsum]
    exact hva i hi
  · rintro ⟨d, hd⟩
    refine ⟨addr + d, fun i hi => ?_⟩
    rw [← hcomm]
    exact hd i hi

/-- A request that is held is served at a distance if the entries that are looked at are. -/
theorem served_iff (hheld : HoldsFirst st.map type addr len) :
    (∀ i < len, physToVirt false cfg st (addr + i) type = .ok (addr + i + d) ∧ addr + i + d ≠ 0) ↔
      OneDistance st.map type addr len d := by
  obtain ⟨front, r, back, hsplit, htype, ⟨hlo, hhi, hfits⟩, -⟩ := hheld
  have hr : r ∈ st.map := hsplit ▸ List.mem_append_right _ List.mem_cons_self
  constructor
  · intro hserved
    refine ⟨fun i hi q hq => ?_, fun i hi => (hserved i hi).2⟩
    have hva := Except.ok.inj (hq.physToVirt.symm.trans (hserved i hi).1)
    bv_omega
  · intro hd i hi
    obtain ⟨q, hq⟩ := exists_firstAt hr htype (paIsIn_of_holds hi hlo hhi hfits)
    rw [hq.physToVirt, hd.same i hi q hq]
    exact ⟨rfl, hd.nonnull i hi⟩

theorem usable_iff (hheld : HoldsFirst st.map type addr len) : Usable debug cfg st type addr len ↔
    ∃ d, OneDistance st.map type addr len d ∧ (debug = true → LedBack cfg st addr len d) := by
  rw [usable_iff_distance]
  refine exists_congr fun d => ?_
  rw [← @served_iff cfg st type addr len d hheld]
  cases debug with
  | false => simp
  | true =>
    constructor
    · intro h
      have hserved : ∀ i < len, physToVirt false cfg st (addr + i) type = .ok (addr + i + d) ∧
          addr + i + d ≠ 0 := fun i hi => ⟨(physToVirt_true_iff.mp (h i hi).1).1, (h i hi).2⟩
      refine ⟨hserved, fun _ => (ledBack_iff fun i hi => (h i hi).2).mpr fun i hi => ?_⟩
      exact (physToVirt_true_iff.mp (h i hi).1).2
    · rintro ⟨hserved, hback⟩ i hi
      have hcheck := (ledBack_iff fun i hi => (hserved i hi).2).mp (hback rfl) i hi
      exact ⟨physToVirt_true_iff.mpr ⟨(hserved i hi).1, hcheck⟩, (hserved i hi).2⟩

end Use

/-! ## The asserts of `phys_to_virt` -/

/-- With a new mapping for the request in the tables the hardware leads `x` to `pa`, or nowhere if that is
null. -/
def LedTo (cfg : XlatCfg) (st : MmuState) (type : MemType) (addr len : Word) (res : MmapRegion)
    (info : CoreMmuTableInfo) (x pa : Word) : Prop :=
  (∃ off, ReadsNew cfg st.tables info res.va (info.length addr len) x off ∧
    ((coreMmuTypeToAttr type ≠ .ok 0 ∧ info.start addr + off = pa) ∨
      (coreMmuTypeToAttr type = .ok 0 ∧ pa = 0))) ∨
  ((∀ off, ¬ ReadsNew cfg st.tables info res.va (info.length addr len) x off) ∧
    (armVa2paHelper cfg st.tables x).getD 0 = pa)

/-- What `core_va2pa_helper` finds for `x` with a new mapping for the request: the first of the entries
before it, of itself and of those behind it. -/
def shownWith (map : List MmapRegion) (addr len : Word) (res : MmapRegion) (info : CoreMmuTableInfo)
    (x : Word) : Option Word :=
  (coreVa2paHelper (aheadOfNew map (info.length addr len)) x).or
    (if res.va ≤ x ∧ x ≤ res.va - 1 + info.length addr len then
      some (if info.start addr ≠ 0 then info.start addr + x - res.va else 0)
    else coreVa2paHelper (behindNew map) x)

/-- With a new mapping for the request its addresses at the distance `d` lead back, in the tables and in
the map. -/
structure LeadsBack (cfg : XlatCfg) (st : MmuState) (type : MemType) (addr len : Word)
    (res : MmapRegion) (info : CoreMmuTableInfo) (d : Word) : Prop where
  hardware : ∀ i < len, LedTo cfg st type addr len res info (addr + i + d) (addr + i)
  shown : ∀ i < len, ∀ p, shownWith st.map addr len res info (addr + i + d) = some p →
    p = 0 ∨ p = addr + i
  missing : ∀ i < len, shownWith st.map addr len res info (addr + i + d) = none → addr + i = 0

section Checks

variable {cfg : XlatCfg} {st st' : MmuState} {map ahead back : List MmapRegion} {r res : MmapRegion}
  {info : CoreMmuTableInfo} {type : MemType} {addr len pa va x d attr : Word}

/-- What `core_va2pa_helper` returns for the first entry that has the address. -/
theorem coreVa2paHelper_eq_map : coreVa2paHelper map va =
    (findMapByVa map va).map fun r => if r.pa ≠ 0 then r.pa + va - r.va else 0 := by
  unfold coreVa2paHelper
  cases hfind : findMapByVa map va with
  | none => rfl
  | some r =>
    have hin := List.find?_some hfind
    have hcomm : r.va - 1 + r.size = r.va + r.size - 1 := by
      rw [BitVec.sub_eq_add_neg, BitVec.sub_eq_add_neg, BitVec.add_assoc, BitVec.add_comm (-1),
        BitVec.add_assoc]
    rw [hcomm] at hin
    exact if_pos hin

theorem coreVa2paHelper_append : coreVa2paHelper (ahead ++ r :: back) x =
    (coreVa2paHelper ahead x).or (if r.va ≤ x ∧ x ≤ r.va - 1 + r.size then
      some (if r.pa ≠ 0 then r.pa + x - r.va else 0) else coreVa2paHelper back x) := by
  rw [coreVa2paHelper_eq_map, coreVa2paHelper_eq_map, coreVa2paHelper_eq_map, findMapByVa,
    List.find?_append, ← findMapByVa]
  cases findMapByVa ahead x with
  | some q => rfl
  | none =>
    by_cases hin : r.va ≤ x ∧ x ≤ r.va - 1 + r.size
    · rw [if_pos hin, List.find?_cons_of_pos (by simpa using hin)]
      rfl
    · rw [if_neg hin, List.find?_cons_of_neg (by simpa using hin)]
      rfl

/-- The map with the new mapping. -/
theorem coreVa2pa_new (hres : findMapByType st.map .resVaspace = some res)
    (hmap : st'.map = (cutMapping st.map res type info.granule attr (info.start addr)
      (info.length addr len)).1) :
    coreVa2paHelper st'.map x = shownWith st.map addr len res info x := by
  rw [hmap, cutMapping_split hres, coreVa2paHelper_append]
  rfl

/-- The tables with the new mapping. -/
theorem ledTo_iff (hinfo : coreMmuFindTable true cfg st res.va 0xFFFFFFFF = .ok (some info))
    (hattr : coreMmuTypeToAttr type = .ok attr)
    (hset : setRegion true cfg info (newRegion res info type attr addr len) st.tables =
      .ok st'.tables) :
    LedTo cfg st type addr len res info x pa ↔ (armVa2paHelper cfg st'.tables x).getD 0 = pa := by
  unfold LedTo
  rw [hattr]
  by_cases hread : ∃ off, ReadsNew cfg st.tables info res.va (info.length addr len) x off
  · obtain ⟨off, hoff⟩ := hread
    by_cases hzero : attr = 0
    · have hhole := armVa2pa_setRegion_hole (r := newRegion res info type attr addr len) hinfo hset
        hoff hzero
      rw [hhole]
      constructor
      · rintro (⟨_, -, ⟨hne, -⟩ | ⟨-, hpa⟩⟩ | ⟨hnone, -⟩)
        · exact absurd (congrArg Except.ok hzero) hne
        · exact hpa.symm
        · exact absurd hoff (hnone off)
      · exact fun hpa => Or.inl ⟨off, hoff, Or.inr ⟨congrArg Except.ok hzero, hpa.symm⟩⟩
    · have hne : (Except.ok attr : Except Fault Word) ≠ .ok 0 := fun h => hzero (Except.ok.inj h)
      have hleads : ∀ off', ReadsNew cfg st.tables info res.va (info.length addr len) x off' →
          armVa2paHelper cfg st'.tables x = some (info.start addr + off') := fun _ hoff' =>
        armVa2pa_setRegion (r := newRegion res info type attr addr len) hinfo hset hoff'
          (mem_mapAttrs hattr hzero)
      constructor
      · rintro (⟨off', hoff', ⟨-, hpa⟩ | ⟨heq, -⟩⟩ | ⟨hnone, -⟩)
        · rw [hleads off' hoff']
          exact hpa
        · exact absurd heq hne
        · exact absurd hoff (hnone off)
      · intro hpa
        rw [hleads off hoff] at hpa
        exact Or.inl ⟨off, hoff, Or.inl ⟨hne, hpa⟩⟩
  · rw [not_exists] at hread
    have hother := armVa2pa_setRegion_other (r := newRegion res info type attr addr len) hinfo hset
      hread
    rw [hother]
    constructor
    · rintro (⟨off, hoff, -⟩ | ⟨-, hpa⟩)
      · exact absurd hoff (hread off)
      · exact hpa
    · exact fun hpa => Or.inr ⟨hread, hpa⟩

/-- The addresses lead back with a new mapping just if they do after the call. -/
theorem leadsBack_iff (hcuts : Cuts true cfg st type addr len res info)
    (hattr : coreMmuTypeToAttr type = .ok attr)
    (hmap : st'.map = (cutMapping st.map res type info.granule attr (info.start addr)
      (info.length addr len)).1)
    (hset : setRegion true cfg info (newRegion res info type attr addr len) st.tables =
      .ok st'.tables) :
    LeadsBack cfg st type addr len res info d ↔ LedBack cfg st' addr len d := by
  have hshown : ∀ x, coreVa2paHelper st'.map x = shownWith st.map addr len res info x := fun x =>
    coreVa2pa_new hcuts.reserved hmap
  have hled : ∀ i, LedTo cfg st type addr len res info (addr + i + d) (addr + i) ↔
      (armVa2paHelper cfg st'.tables (addr + i + d)).getD 0 = addr + i := fun i =>
    ledTo_iff hcuts.table hattr hset
  constructor
  · intro h
    refine ⟨fun i hi => (hled i).mp (h.hardware i hi), fun i hi p hp => ?_, fun i hi hp => ?_⟩
    · exact h.shown i hi p ((hshown _).symm.trans hp)
    · exact h.missing i hi ((hshown _).symm.trans hp)
  · intro h
    refine ⟨fun i hi => (hled i).mpr (h.hardware i hi), fun i hi p hp => ?_, fun i hi hp => ?_⟩
    · exact h.shown i hi p ((hshown _).trans hp)
    · exact h.missing i hi ((hshown _).trans hp)

end Checks

/-! ## Requests that are granted -/

/-- A request that was granted is usable, and asking again changes nothing. -/
structure Granted (debug : Bool) (cfg : XlatCfg) (st : MmuState) (type : MemType) (addr len : Word) :
    Prop where
  usable : Usable debug cfg st type addr len
  again : coreMmuAddMapping debug cfg st type addr len = .ok (true, st)

/-- A new mapping for the request goes with the entries that come before it: these hold the request
themselves, or none of its type has the first address and the rounded length does not wrap; and all
addresses of the request are at the distance `d`, both those that the entries before have and, at the
distance of the new mapping, the others. -/
structure CutsWell (map : List MmapRegion) (type : MemType) (addr len : Word) (res : MmapRegion)
    (info : CoreMmuTableInfo) (d : Word) : Prop where
  again : HoldsFirst (aheadOfNew map (info.length addr len)) type addr len ∨
    ((∀ q ∈ aheadOfNew map (info.length addr len), q.type = type → q.paIsIn addr = false) ∧
      info.length addr len ≠ 0)
  served : ∀ i < len, ∀ q,
    (lookupBefore map (info.length addr len) type).find? (·.paIsIn (addr + i)) = some q → q.va - q.pa = d
  unserved : ∀ i < len,
    (lookupBefore map (info.length addr len) type).find? (·.paIsIn (addr + i)) = none →
      res.va - info.start addr = d
  nonnull : ∀ i < len, addr + i + d ≠ 0

/-- Before the call: the request is held at one distance, or a new mapping for it goes with the entries
that there are. With asserts the addresses lead back. -/
def Grants (debug : Bool) (cfg : XlatCfg) (st : MmuState) (type : MemType) (addr len : Word) : Prop :=
  (HoldsFirst st.map type addr len ∧
    ∃ d, OneDistance st.map type addr len d ∧ (debug = true → LedBack cfg st addr len d)) ∨
  ∃ res info d, Cuts debug cfg st type addr len res info ∧ CutsWell st.map type addr len res info d ∧
    (debug = true → LeadsBack cfg st type addr len res info d)

/-- A request for reserved addresses that leaves out no more than the ends of the first and of the last
section. -/
def WrapsReserved (type : MemType) (addr len : Word) : Prop :=
  type = .resVaspace ∧ addr.toNat < 2 ^ 20 ∧ 2 ^ 32 < addr.toNat + len.toNat + 2 ^ 20

section Grants

variable {debug : Bool} {cfg : XlatCfg} {st st' : MmuState} {type : MemType} {addr len : Word}

theorem addMapping_of_holdsFirst (hlen : 0 < len) (hend : addr.toNat + len.toNat ≤ 2 ^ 32)
    (h : HoldsFirst st.map type addr len) :
    coreMmuAddMapping debug cfg st type addr len = .ok (true, st) := by
  rw [coreMmuAddMapping, planMapping_of_holdsFirst hlen hend h]
  rfl

/-- A call that changes nothing had nothing to do, or cut the reserved range from itself. -/
theorem holdsFirst_of_again (hlen : 0 < len) (hend : addr.toNat + len.toNat ≤ 2 ^ 32)
    (hagain : coreMmuAddMapping debug cfg st type addr len = .ok (true, st)) :
    HoldsFirst st.map type addr len ∨ WrapsReserved type addr len := by
  rcases addMapping_cases hlen hend hagain with ⟨hheld, -⟩ | ⟨res, info, attr, hcuts, -, hmap, -⟩
  · exact Or.inl hheld
  · have heq := eq_of_cutMapping_eq hcuts.reserved hmap.symm
    obtain ⟨hresType, front, back, hsplit, hfront⟩ := findMapByType_split hcuts.reserved
    have htype : type = .resVaspace := by
      rw [← hresType, heq]
    have hshift := shift_of_findTable hcuts.table
    rcases length_cases hshift hlen hend with hholds | ⟨-, -, hlo, hhi⟩
    · refine absurd ⟨front, res, back, hsplit, hresType.trans htype.symm, ?_, ?_⟩ hcuts.missing
      · rw [heq]
        exact hholds
      · intro q hq hqtype
        exact absurd (hqtype.trans htype) (hfront q hq)
    · have hpow : 2 ^ info.shift ≤ 2 ^ 20 := Nat.pow_le_pow_right (by decide) (by omega)
      exact Or.inr ⟨htype, by omega, by omega⟩

/-- A new mapping that goes with the entries before it makes the request one that is held at one
distance, and no other does. -/
theorem cutsWell_iff {res : MmapRegion} {info : CoreMmuTableInfo} {attr d : Word}
    (hcuts : Cuts debug cfg st type addr len res info) (hlen : 0 < len)
    (hend : addr.toNat + len.toNat ≤ 2 ^ 32)
    (hmap : st'.map = (cutMapping st.map res type info.granule attr (info.start addr)
      (info.length addr len)).1) :
    CutsWell st.map type addr len res info d ↔
      HoldsFirst st'.map type addr len ∧ OneDistance st'.map type addr len d := by
  have hshift := shift_of_findTable hcuts.table
  rw [hmap, holdsFirst_cut_iff hcuts.reserved hshift hlen hend,
    oneDistance_cut_iff hcuts.reserved hshift hend]
  constructor
  · exact fun h => ⟨h.again, h.served, h.unserved, h.nonnull⟩
  · rintro ⟨hagain, hserved, hunserved, hnonnull⟩
    exact ⟨hagain, hserved, hunserved, hnonnull⟩

/-- A mapping of memory that no entry before it has, at virtual addresses that no entry before it has and
that the hardware reads from it, goes with the entries that there are. -/
theorem Cuts.grants {res : MmapRegion} {info : CoreMmuTableInfo}
    (hcuts : Cuts debug cfg st type addr len res info) (hlen : 0 < len)
    (htried : triedBefore type = []) (hlength : info.length addr len ≠ 0)
    (hmapped : coreMmuTypeToAttr type ≠ .ok 0)
    (hpa : ∀ i < len, ∀ q ∈ aheadOfNew st.map (info.length addr len), q.type = type →
      q.paIsIn (addr + i) = false)
    (hva : ∀ i < len, coreVa2paHelper (aheadOfNew st.map (info.length addr len))
      (res.va + (addr + i - info.start addr)) = none)
    (hin : ∀ i < len, res.va ≤ res.va + (addr + i - info.start addr) ∧
      res.va + (addr + i - info.start addr) ≤ res.va - 1 + info.length addr len)
    (hread : ∀ i < len, ReadsNew cfg st.tables info res.va (info.length addr len)
      (res.va + (addr + i - info.start addr)) (addr + i - info.start addr))
    (hnonnull : ∀ i < len, res.va + (addr + i - info.start addr) ≠ 0) :
    Grants debug cfg st type addr len := by
  have hnew : ∀ i, addr + i + (res.va - info.start addr) = res.va + (addr + i - info.start addr) := by
    intro i
    bv_omega
  have hback : ∀ i, info.start addr + (addr + i - info.start addr) = addr + i := by
    intro i
    bv_omega
  have hfirst : ∀ i < len, (lookupBefore st.map (info.length addr len) type).find?
      (·.paIsIn (addr + i)) = none := by
    intro i hi
    refine List.find?_eq_none.mpr fun q hq => ?_
    rw [lookupBefore, htried, List.flatMap_nil, List.nil_append, List.mem_filter] at hq
    rw [hpa i hi q hq.1 (of_decide_eq_true hq.2)]
    exact Bool.false_ne_true
  have hshown : ∀ i < len, shownWith st.map addr len res info (addr + i + (res.va - info.start addr)) =
      some (if info.start addr ≠ 0 then addr + i else 0) := by
    intro i hi
    have hpa' : info.start addr + (res.va + (addr + i - info.start addr)) - res.va = addr + i := by
      bv_omega
    rw [shownWith, hnew, hva i hi, if_pos (hin i hi), hpa']
    rfl
  refine Or.inr ⟨res, info, res.va - info.start addr, hcuts, ⟨Or.inr ⟨?_, hlength⟩, ?_, fun _ _ _ => rfl,
    fun i hi => hnew i ▸ hnonnull i hi⟩, fun _ => ⟨fun i hi => ?_, fun i hi p hp => ?_, fun i hi hp => ?_⟩⟩
  · simpa using hpa 0 hlen
  · intro i hi q hq
    cases (hfirst i hi).symm.trans hq
  · rw [hnew]
    exact Or.inl ⟨_, hread i hi, Or.inl ⟨hmapped, hback i⟩⟩
  · rw [hshown i hi] at hp
    have hp := Option.some.inj hp
    split at hp
    · exact Or.inr hp.symm
    · exact Or.inl hp.symm
  · rw [hshown i hi] at hp
    cases hp

end Grants

/-- The kernel after four pages of a device are mapped. -/
def lateMmu : Except Fault MmuState := do
  let st ← bootMmu
  let ret ← coreMmuAddMapping true bootTables st .ioSec 0x30000000 0x4000
  .ok ret.2

end SeCloak
