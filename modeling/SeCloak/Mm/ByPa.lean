import SeCloak.Mm.Dynamic

/-!
# Lookup by physical address (`core_mmu.c:192-202`, `core_mmu.c:779-786`)

The entry of a physical address is the first one that has it and ends below the top of the address
space: the end of an entry is computed in 32 bits. Reserved virtual ranges are entries as well, with a
null physical address, and the search does not tell them from mapped memory.
-/

namespace SeCloak
open Misc

/-- The test of `find_map_by_pa` (`core_mmu.c:197`). -/
def MmapRegion.paBefore (r : MmapRegion) (pa : Word) : Bool := r.pa ≤ pa && pa < r.pa + r.size

/-- `find_map_by_pa` (`core_mmu.c:192-202`). -/
def findMapByPa (map : List MmapRegion) (pa : Word) : Option MmapRegion :=
  map.find? fun r => r.paBefore pa

/-- `core_mmu_get_type_by_pa` (`core_mmu.c:779-786`). -/
def coreMmuGetTypeByPa (map : List MmapRegion) (pa : Word) : MemType :=
  match findMapByPa map pa with
  | none => .notype
  | some r => r.type

/-! ## Entries -/

/-- The entry covers the physical address. -/
def MmapRegion.HasPa (r : MmapRegion) (pa : Word) : Prop := r.pspan.Has pa.toNat

/-- The attributes are those of a valid block. -/
def MmapRegion.ValidBlock (r : MmapRegion) : Prop := r.attr &&& mattrValidBlock ≠ 0

/-- The end of the entry is an address. -/
def MmapRegion.EndsBelowTop (r : MmapRegion) : Prop := r.pspan.hi < 2 ^ 32

/-- No addresses at all, with a null physical address. -/
def MmapRegion.EmptyAtZero (r : MmapRegion) : Prop := r.pa = 0 ∧ r.size = 0

instance (r : MmapRegion) (pa : Word) : Decidable (r.HasPa pa) :=
  inferInstanceAs (Decidable (r.pspan.Has pa.toNat))

instance (r : MmapRegion) : Decidable r.ValidBlock :=
  inferInstanceAs (Decidable (r.attr &&& mattrValidBlock ≠ 0))

instance (r : MmapRegion) : Decidable r.EndsBelowTop :=
  inferInstanceAs (Decidable (r.pspan.hi < 2 ^ 32))

instance (r : MmapRegion) : Decidable r.EmptyAtZero :=
  inferInstanceAs (Decidable (r.pa = 0 ∧ r.size = 0))

section Entries

variable {r q : MmapRegion} {pa : Word}

/-- The strict comparison finds the entries that end below the top. -/
theorem MmapRegion.paBefore_iff : r.paBefore pa = true ↔ r.HasPa pa ∧ r.EndsBelowTop := by
  have hr := r.pa.isLt
  have hs := r.size.isLt
  have hadd : (r.pa + r.size).toNat = (r.pa.toNat + r.size.toNat) % 2 ^ 32 := BitVec.toNat_add _ _
  rw [MmapRegion.paBefore, Bool.and_eq_true, decide_eq_true_eq, decide_eq_true_eq, BitVec.le_def,
    BitVec.lt_def, hadd]
  change _ ↔ (r.pa.toNat ≤ pa.toNat ∧ pa.toNat < r.pa.toNat + r.size.toNat) ∧
    r.pa.toNat + r.size.toNat < 2 ^ 32
  omega

/-- The comparison with the last address finds those that end at the top as well, and at every
address an empty one at address zero. -/
theorem MmapRegion.paIsIn_iff :
    r.paIsIn pa = true ↔ (r.HasPa pa ∧ r.pspan.hi ≤ 2 ^ 32) ∨ r.EmptyAtZero := by
  have hempty : r.EmptyAtZero ↔ r.pa.toNat = 0 ∧ r.size.toNat = 0 :=
    and_congr BitVec.toNat_inj.symm BitVec.toNat_inj.symm
  rw [MmapRegion.paIsIn, Bool.and_eq_true, decide_eq_true_eq, decide_eq_true_eq, hempty]
  change _ ↔ ((r.pa.toNat ≤ pa.toNat ∧ pa.toNat < r.pa.toNat + r.size.toNat) ∧
    r.pa.toNat + r.size.toNat ≤ 2 ^ 32) ∨ _
  bv_omega

theorem MmapRegion.hasPa_of_paIsIn (h : r.paIsIn pa = true) (hne : ¬ r.EmptyAtZero) : r.HasPa pa :=
  ((paIsIn_iff.mp h).resolve_right hne).1

theorem MmapRegion.EmptyAtZero.not_hasPa (h : r.EmptyAtZero) : ¬ r.HasPa pa := by
  intro hpa
  have hlt := hpa.2
  rw [MmapRegion.pspan, h.1, h.2] at hlt
  exact Nat.not_lt_zero _ hlt

end Entries

/-! ## Reachable maps -/

/-- The attributes of an entry are those of its type. -/
def Typed (map : List MmapRegion) : Prop := ∀ r ∈ map, coreMmuTypeToAttr r.type = .ok r.attr

/-- A call of `core_mmu_add_mapping` that returns. -/
def CallsAddMapping (debug : Bool) (cfg : XlatCfg) (st : MmuState) (mem : PhysMem) (st' : MmuState) :
    Prop :=
  ∃ result, coreMmuAddMapping debug cfg st mem.type mem.addr mem.size = .ok (result, st')

section Reachable

variable {debug : Bool} {cfg : XlatCfg} {st st' : MmuState} {map : List MmapRegion}
  {r q res : MmapRegion} {mem : PhysMem} {pa : Word}

theorem typed_of_initMemMap {mcfg : MmuCfg} {mems special : List PhysMem}
    (h : initMemMap mcfg mems special = .ok map) : Typed map := by
  obtain ⟨table, htable⟩ := placeMemMap_of_initMemMap h
  intro r hr
  exact (mem_of_placeMemMap htable hr).2.1

theorem typed_cons {rs : List MmapRegion} :
    Typed (r :: rs) ↔ coreMmuTypeToAttr r.type = .ok r.attr ∧ Typed rs := List.forall_mem_cons

theorem typed_append {front back : List MmapRegion} :
    Typed (front ++ back) ↔ Typed front ∧ Typed back := List.forall_mem_append

theorem Typed.changeReserved {f : MmapRegion → MmapRegion} (h : Typed map)
    (hf : ∀ r, coreMmuTypeToAttr r.type = .ok r.attr → coreMmuTypeToAttr (f r).type = .ok (f r).attr) :
    Typed (changeReserved f map) := by
  induction map with
  | nil => exact h
  | cons r rs ih =>
    obtain ⟨hr, hrs⟩ := typed_cons.mp h
    rw [SeCloak.changeReserved]
    split
    · exact typed_cons.mpr ⟨hf r hr, hrs⟩
    · exact typed_cons.mpr ⟨hr, ih hrs⟩

theorem Typed.cut (h : Typed map) {type : MemType} {granule attr p l : Word}
    (hattr : coreMmuTypeToAttr type = .ok attr) : Typed (cutMapping map res type granule attr p l).1 := by
  unfold cutMapping
  dsimp only
  split
  · refine typed_append.mpr ⟨h.changeReserved fun r hr => hr, ?_⟩
    exact typed_cons.mpr ⟨hattr, fun r hr => absurd hr List.not_mem_nil⟩
  · exact h.changeReserved fun r _ => hattr

theorem CallsAddMapping.typed (h : CallsAddMapping debug cfg st mem st') (hst : Typed st.map) :
    Typed st'.map := by
  obtain ⟨result, hrun⟩ := h
  obtain ⟨plan, hplan, hrun⟩ := except_bind_ok hrun
  cases plan with
  | done b =>
    cases hrun
    exact hst
  | cut res info =>
    obtain ⟨attr, hattr, hrun⟩ := except_bind_ok hrun
    obtain ⟨tables, -, hrun⟩ := except_bind_ok hrun
    cases hrun
    exact hst.cut hattr

/-- Every reachable map has its attributes from its types. -/
theorem Typed.run {calls : List PhysMem} (h : Typed st.map)
    (hrun : Steps (CallsAddMapping debug cfg) st calls st') : Typed st'.map :=
  hrun.invariant (I := fun st => Typed st.map) (fun _ _ _ _ hstep => hstep.typed) h

theorem Typed.ne_notype (h : Typed map) (hr : r ∈ map) : r.type ≠ .notype := by
  intro htype
  have hattr := h r hr
  rw [htype] at hattr
  cases hattr

theorem Typed.validBlock_iff (h : Typed map) (hr : r ∈ map) (hq : q ∈ map) (htype : r.type = q.type) :
    r.ValidBlock ↔ q.ValidBlock := by
  have hattr := h r hr
  rw [htype, h q hq] at hattr
  rw [MmapRegion.ValidBlock, MmapRegion.ValidBlock, Except.ok.inj hattr]

end Reachable

/-! ## The answer -/

/-- No type is returned exactly if no mapped entry covers the address, and through a type that is
returned one is found. -/
structure TypeFound (map : List MmapRegion) (pa : Word) : Prop where
  notype_iff : coreMmuGetTypeByPa map pa = .notype ↔ ¬ ∃ r ∈ map, r.ValidBlock ∧ r.HasPa pa
  found : coreMmuGetTypeByPa map pa ≠ .notype →
    ∃ r, findMapByTypeAndPa map (coreMmuGetTypeByPa map pa) pa = some r ∧ r.ValidBlock ∧ r.HasPa pa

/-- A reserved range covers the address and ends below the top, and so does no mapped entry before
it. -/
def Shadowed (map : List MmapRegion) (pa : Word) : Prop :=
  ∃ front r back, map = front ++ r :: back ∧ ¬ r.ValidBlock ∧ r.HasPa pa ∧ r.EndsBelowTop ∧
    ∀ q ∈ front, q.ValidBlock → q.HasPa pa → ¬ q.EndsBelowTop

/-- A mapped entry covers the address, and all entries that do so reach the top. -/
def OnlyAtTop (map : List MmapRegion) (pa : Word) : Prop :=
  (∃ r ∈ map, r.ValidBlock ∧ r.HasPa pa) ∧ ∀ r ∈ map, r.HasPa pa → ¬ r.EndsBelowTop

/-- The first entry that covers the address and ends below the top is mapped, but under its type an
empty entry at address zero comes first. -/
def HiddenByEmpty (map : List MmapRegion) (pa : Word) : Prop :=
  ∃ front r back, map = front ++ r :: back ∧ r.ValidBlock ∧ r.HasPa pa ∧ r.EndsBelowTop ∧
    (∀ q ∈ front, q.HasPa pa → ¬ q.EndsBelowTop) ∧
    ∃ ahead q behind, front = ahead ++ q :: behind ∧ q.type = r.type ∧ q.EmptyAtZero ∧
      ∀ p ∈ ahead, p.type = r.type → p.HasPa pa → 2 ^ 32 < p.pspan.hi

section Answer

variable {map front back : List MmapRegion} {r q : MmapRegion} {pa : Word}

theorem findMapByPa_eq_none_iff :
    findMapByPa map pa = none ↔ ∀ r ∈ map, r.HasPa pa → ¬ r.EndsBelowTop := by
  unfold findMapByPa
  rw [List.find?_eq_none]
  refine forall₂_congr fun r _ => ?_
  rw [MmapRegion.paBefore_iff, not_and]

theorem findMapByPa_eq_some_iff : findMapByPa map pa = some r ↔ r.HasPa pa ∧ r.EndsBelowTop ∧
    ∃ front back, map = front ++ r :: back ∧ ∀ q ∈ front, q.HasPa pa → ¬ q.EndsBelowTop := by
  have hfront : ∀ q : MmapRegion, (!q.paBefore pa) = true ↔ (q.HasPa pa → ¬ q.EndsBelowTop) := by
    intro q
    rw [Bool.not_eq_true', ← Bool.not_eq_true, MmapRegion.paBefore_iff, not_and]
  unfold findMapByPa
  rw [List.find?_eq_some_iff_append, MmapRegion.paBefore_iff, and_assoc]
  simp only [hfront]

/-- Without an entry that ends below the top, the answer is right if nothing mapped is there. -/
theorem typeFound_iff_of_none (h : findMapByPa map pa = none) :
    TypeFound map pa ↔ ¬ OnlyAtTop map pa := by
  have htype : coreMmuGetTypeByPa map pa = .notype := by
    rw [coreMmuGetTypeByPa, h]
  have hall := findMapByPa_eq_none_iff.mp h
  constructor
  · intro hfound hbad
    exact hfound.notype_iff.mp htype hbad.1
  · intro hbad
    refine ⟨⟨fun _ hex => hbad ⟨hex, hall⟩, fun _ => htype⟩, fun hne => absurd htype hne⟩

theorem findMapByTypeAndPa_eq_some_iff {type : MemType} :
    findMapByTypeAndPa map type pa = some r ↔ (r.type = type ∧ r.paIsIn pa = true) ∧
      ∃ front back, map = front ++ r :: back ∧ ∀ q ∈ front, q.type = type → q.paIsIn pa = false := by
  unfold findMapByTypeAndPa
  rw [List.find?_eq_some_iff_append]
  simp only [Bool.and_eq_true, decide_eq_true_eq, Bool.not_eq_true', Bool.and_eq_false_iff,
    decide_eq_false_iff_not, imp_iff_not_or]

theorem findMapByTypeAndPa_append_cons (h : r.paIsIn pa = true) :
    findMapByTypeAndPa (front ++ r :: back) r.type pa =
      some ((findMapByTypeAndPa front r.type pa).getD r) := by
  unfold findMapByTypeAndPa
  rw [List.find?_append, List.find?_cons_of_pos (by simp [h])]
  cases List.find? (fun q => q.type = r.type && q.paIsIn pa) front <;> rfl

/-- The entry that is found under the type covers the address unless an empty one comes first. -/
theorem findMapByTypeAndPa_of_hasPa (hpa : r.HasPa pa) (hend : r.EndsBelowTop) :
    (∃ p, findMapByTypeAndPa (front ++ r :: back) r.type pa = some p ∧ p.HasPa pa) ↔
      ¬ ∃ ahead q behind, front = ahead ++ q :: behind ∧ q.type = r.type ∧ q.EmptyAtZero ∧
        ∀ p ∈ ahead, p.type = r.type → p.HasPa pa → 2 ^ 32 < p.pspan.hi := by
  constructor
  · rintro ⟨p, hp, hppa⟩ ⟨ahead, q, behind, rfl, htype, hempty, hahead⟩
    rw [List.append_assoc, List.cons_append, ← htype,
      findMapByTypeAndPa_append_cons (MmapRegion.paIsIn_iff.mpr (Or.inr hempty)), htype] at hp
    obtain rfl := Option.some.inj hp
    cases hfind : findMapByTypeAndPa ahead r.type pa with
    | none =>
      rw [hfind] at hppa
      exact hempty.not_hasPa hppa
    | some p =>
      rw [hfind] at hppa
      obtain ⟨⟨hptype, hin⟩, -⟩ := findMapByTypeAndPa_eq_some_iff.mp hfind
      have hlt := hahead p (List.mem_of_find?_eq_some hfind) hptype hppa
      rcases MmapRegion.paIsIn_iff.mp hin with ⟨-, hle⟩ | hpempty
      · exact absurd hlt (Nat.not_lt.mpr hle)
      · exact hpempty.not_hasPa hppa
  · intro hclear
    have hin : r.paIsIn pa = true := MmapRegion.paIsIn_iff.mpr (Or.inl ⟨hpa, Nat.le_of_lt hend⟩)
    refine ⟨_, findMapByTypeAndPa_append_cons hin, ?_⟩
    cases hfind : findMapByTypeAndPa front r.type pa with
    | none => exact hpa
    | some p =>
      obtain ⟨⟨hptype, hpin⟩, ahead, behind, rfl, hahead⟩ := findMapByTypeAndPa_eq_some_iff.mp hfind
      rcases MmapRegion.paIsIn_iff.mp hpin with ⟨hppa, -⟩ | hempty
      · exact hppa
      · refine absurd ⟨ahead, p, behind, rfl, hptype, hempty, ?_⟩ hclear
        intro q hq hqtype hqpa
        by_contra hle
        have hqin := MmapRegion.paIsIn_iff.mpr (Or.inl ⟨hqpa, Nat.not_lt.mp hle⟩)
        rw [hahead q hq hqtype] at hqin
        cases hqin

/-- With one, the answer is right if it is mapped and found again under its type. -/
theorem typeFound_iff_of_some (hmap : Typed (front ++ r :: back)) (hpa : r.HasPa pa)
    (hend : r.EndsBelowTop) (hfront : ∀ q ∈ front, q.HasPa pa → ¬ q.EndsBelowTop) :
    TypeFound (front ++ r :: back) pa ↔ r.ValidBlock ∧
      ∃ p, findMapByTypeAndPa (front ++ r :: back) r.type pa = some p ∧ p.HasPa pa := by
  have hr : r ∈ front ++ r :: back := List.mem_append_right _ List.mem_cons_self
  have hfind : findMapByPa (front ++ r :: back) pa = some r :=
    findMapByPa_eq_some_iff.mpr ⟨hpa, hend, front, back, rfl, hfront⟩
  have htype : coreMmuGetTypeByPa (front ++ r :: back) pa = r.type := by
    rw [coreMmuGetTypeByPa, hfind]
  have hne : r.type ≠ .notype := hmap.ne_notype hr
  have hvalid : ∀ p, findMapByTypeAndPa (front ++ r :: back) r.type pa = some p →
      (p.ValidBlock ↔ r.ValidBlock) := by
    intro p hp
    have hmem := List.mem_of_find?_eq_some hp
    exact hmap.validBlock_iff hmem hr (findMapByTypeAndPa_eq_some_iff.mp hp).1.1
  constructor
  · intro hfound
    have hp := hfound.found
    rw [htype] at hp
    obtain ⟨p, hp, hblock, hppa⟩ := hp hne
    exact ⟨(hvalid p hp).mp hblock, p, hp, hppa⟩
  · rintro ⟨hblock, p, hp, hppa⟩
    refine ⟨?_, fun _ => ?_⟩
    · rw [htype]
      exact ⟨fun h => absurd h hne, fun h => absurd ⟨r, hr, hblock, hpa⟩ h⟩
    · rw [htype]
      exact ⟨p, hp, (hvalid p hp).mpr hblock, hppa⟩

/-- Of two places in a list, one is ahead of the other unless they are the same. -/
theorem mem_or_eq_of_append_cons {α : Type} {front front' back back' : List α} {r r' : α}
    (h : front ++ r :: back = front' ++ r' :: back') :
    r ∈ front' ∨ (front = front' ∧ r = r') ∨ r' ∈ front := by
  induction front generalizing front' with
  | nil =>
    cases front' with
    | nil => exact Or.inr (Or.inl ⟨rfl, (List.cons.inj h).1⟩)
    | cons a front' =>
      obtain rfl := (List.cons.inj h).1
      exact Or.inl List.mem_cons_self
  | cons a front ih =>
    cases front' with
    | nil =>
      obtain rfl := (List.cons.inj h).1
      exact Or.inr (Or.inr List.mem_cons_self)
    | cons b front' =>
      obtain ⟨hhead, htail⟩ := List.cons.inj h
      subst hhead
      rcases ih htail with hmem | ⟨rfl, rfl⟩ | hmem
      · exact Or.inl (List.mem_cons_of_mem _ hmem)
      · exact Or.inr (Or.inl ⟨rfl, rfl⟩)
      · exact Or.inr (Or.inr (List.mem_cons_of_mem _ hmem))

/-- A reserved range comes before the mapped entries if the first entry is one. -/
theorem shadowed_iff (hpa : r.HasPa pa) (hend : r.EndsBelowTop)
    (hfront : ∀ q ∈ front, q.HasPa pa → ¬ q.EndsBelowTop) :
    Shadowed (front ++ r :: back) pa ↔ ¬ r.ValidBlock := by
  constructor
  · rintro ⟨front', r', back', hsplit, hblock', hpa', hend', hfront'⟩ hblock
    rcases mem_or_eq_of_append_cons hsplit with hmem | ⟨-, rfl⟩ | hmem
    · exact hfront' r hmem hblock hpa hend
    · exact hblock' hblock
    · exact hfront r' hmem hpa' hend'
  · intro hblock
    exact ⟨front, r, back, rfl, hblock, hpa, hend, fun q hq _ => hfront q hq⟩

theorem hiddenByEmpty_iff (hpa : r.HasPa pa) (hend : r.EndsBelowTop)
    (hfront : ∀ q ∈ front, q.HasPa pa → ¬ q.EndsBelowTop) :
    HiddenByEmpty (front ++ r :: back) pa ↔ r.ValidBlock ∧
      ∃ ahead q behind, front = ahead ++ q :: behind ∧ q.type = r.type ∧ q.EmptyAtZero ∧
        ∀ p ∈ ahead, p.type = r.type → p.HasPa pa → 2 ^ 32 < p.pspan.hi := by
  constructor
  · rintro ⟨front', r', back', hsplit, hblock, hpa', hend', hfront', hempty⟩
    rcases mem_or_eq_of_append_cons hsplit with hmem | ⟨rfl, rfl⟩ | hmem
    · exact absurd hend (hfront' r hmem hpa)
    · exact ⟨hblock, hempty⟩
    · exact absurd hend' (hfront r' hmem hpa')
  · rintro ⟨hblock, hempty⟩
    exact ⟨front, r, back, rfl, hblock, hpa, hend, hfront, hempty⟩

end Answer

/-- In every reachable map the type of an address is right except where a reserved range, the top of
the address space or an empty entry comes between. -/
theorem typeFound_iff {debug : Bool} {cfg : XlatCfg} {mcfg : MmuCfg}
    {mems special calls : List PhysMem} {st st' : MmuState}
    (hinit : initMemMap mcfg mems special = .ok st.map)
    (hrun : Steps (CallsAddMapping debug cfg) st calls st') (pa : Word) :
    TypeFound st'.map pa ↔
      ¬ (Shadowed st'.map pa ∨ OnlyAtTop st'.map pa ∨ HiddenByEmpty st'.map pa) := by
  have hmap : Typed st'.map := (typed_of_initMemMap hinit).run hrun
  generalize st'.map = map at hmap ⊢
  cases hfind : findMapByPa map pa with
  | none =>
    have hall := findMapByPa_eq_none_iff.mp hfind
    have hshadow : ¬ Shadowed map pa := by
      rintro ⟨front, r, back, rfl, -, hpa, hend, -⟩
      exact hall r (List.mem_append_right _ List.mem_cons_self) hpa hend
    have hempty : ¬ HiddenByEmpty map pa := by
      rintro ⟨front, r, back, rfl, -, hpa, hend, -⟩
      exact hall r (List.mem_append_right _ List.mem_cons_self) hpa hend
    rw [typeFound_iff_of_none hfind]
    simp [hshadow, hempty]
  | some r =>
    obtain ⟨hpa, hend, front, back, rfl, hfront⟩ := findMapByPa_eq_some_iff.mp hfind
    have htop : ¬ OnlyAtTop (front ++ r :: back) pa := fun h =>
      h.2 r (List.mem_append_right _ List.mem_cons_self) hpa hend
    rw [typeFound_iff_of_some hmap hpa hend hfront, findMapByTypeAndPa_of_hasPa hpa hend,
      shadowed_iff hpa hend hfront, hiddenByEmpty_iff hpa hend hfront]
    by_cases hblock : r.ValidBlock
    · simp only [hblock, htop, true_and, not_true, false_or]
    · simp only [hblock, false_and, not_false_iff, true_or, not_true]

/-- The registers of a device that is mapped after the boot. -/
theorem typeFound_iff_late :
    ∃ st st', Steps (CallsAddMapping true bootTables) st [⟨.ioSec, 0x30000000, 0x4000⟩] st' ∧
      TypeFound st'.map 0x30000010 := by
  have hboot : bootMmu.toOption.isSome = true := by decide +kernel
  have hcall : ∀ st ∈ bootMmu.toOption,
      (coreMmuAddMapping true bootTables st .ioSec 0x30000000 0x4000).toOption.isSome = true := by
    decide +kernel
  have hentries : ∀ st ∈ bootMmu.toOption,
      ∀ ret ∈ (coreMmuAddMapping true bootTables st .ioSec 0x30000000 0x4000).toOption,
        ∀ r ∈ ret.2.map, ¬ r.EmptyAtZero ∧ (r.HasPa 0x30000010 → r.ValidBlock ∧ r.EndsBelowTop) := by
    decide +kernel
  obtain ⟨st, hst⟩ := exists_ok hboot
  have hmem : st ∈ bootMmu.toOption := by
    rw [hst]
    rfl
  obtain ⟨ret, hret⟩ := exists_ok (hcall st hmem)
  have hall := hentries st hmem ret (by rw [hret]; rfl)
  have hrun : Steps (CallsAddMapping true bootTables) st [⟨.ioSec, 0x30000000, 0x4000⟩] ret.2 :=
    .cons ⟨ret.1, hret⟩ (.nil _)
  refine ⟨st, ret.2, hrun, (typeFound_iff (initMemMap_of_bootMmu hst) hrun 0x30000010).mpr ?_⟩
  rintro (⟨front, r, back, hsplit, hblock, hpa, -⟩ | ⟨⟨r, hr, -, hpa⟩, htop⟩ |
    ⟨front, r, back, hsplit, -, -, -, -, ahead, q, behind, rfl, -, hempty, -⟩)
  · exact hblock ((hall r (hsplit ▸ List.mem_append_right _ List.mem_cons_self)).2 hpa).1
  · exact htop r hr hpa ((hall r hr).2 hpa).2
  · refine (hall q ?_).1 hempty
    rw [hsplit]
    exact List.mem_append_left _ (List.mem_append_right _ List.mem_cons_self)

/-- The first section is not mapped at the boot, but its addresses have the type of a reserved range,
and no entry of that type is mapped. -/
theorem not_typeFound_first :
    ∃ st, bootMmu = .ok st ∧ coreMmuGetTypeByPa st.map 0x1000 = .resVaspace ∧
      (∀ r ∈ st.map, r.ValidBlock → ¬ r.HasPa 0x1000) ∧ ¬ TypeFound st.map 0x1000 := by
  have hrun : ∀ st ∈ bootMmu.toOption, coreMmuGetTypeByPa st.map 0x1000 = .resVaspace ∧
      ∀ r ∈ st.map, r.ValidBlock → ¬ r.HasPa 0x1000 := by decide +kernel
  refine exists_ok_of (by decide +kernel) ?_
  intro st hst
  obtain ⟨htype, hnone⟩ := hrun st hst
  refine ⟨htype, hnone, fun hfound => ?_⟩
  have hnotype := hfound.notype_iff.mpr fun ⟨r, hr, hblock, hpa⟩ => hnone r hr hblock hpa
  rw [htype] at hnotype
  cases hnotype

end SeCloak
