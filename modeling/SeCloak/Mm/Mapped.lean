import SeCloak.Misc.Extend
import SeCloak.Misc.Results
import SeCloak.Mm.Placing
import SeCloak.Mm.Walk

/-!
# What the tables translate (`core_mmu_v7.c:563-704`)

Each entry of the memory map extends the lookup by the pairs `MmapRegion.Maps`, and by nothing else. An
area of small pages is mapped as if its physical address had the offset of its virtual address in the
section.
-/

namespace SeCloak
open Misc

/-! ## Loops -/

/-- The descriptor of the section `i` in a loop that starts with `pa` at `idx`. -/
def sectionDesc (attr pa : Word) (idx i : Nat) : Word :=
  (pa + BitVec.ofNat 32 ((i - idx) * 2 ^ 20)) ||| attr

/-- What a loop over the first level table leaves. -/
structure SectionsSet (attr : Word) (n idx : Nat) (pa : Word) (st st' : XlatTables) : Prop where
  may : ∀ i, idx ≤ i → i < idx + n → mayWrite attr (st.l1 i) (sectionDesc attr pa idx i)
  set : ∀ i, idx ≤ i → i < idx + n → st'.l1 i = sectionDesc attr pa idx i
  same : ∀ i, ¬ (idx ≤ i ∧ i < idx + n) → st'.l1 i = st.l1 i
  l2 : st'.l2 = st.l2
  used : st'.used = st.used
  bound : 0 < n → idx + n ≤ 4096

theorem sectionDesc_self (attr pa : Word) (idx : Nat) : sectionDesc attr pa idx idx = pa ||| attr := by
  unfold sectionDesc
  rw [Nat.sub_self, Nat.zero_mul, BitVec.add_zero]

theorem sectionDesc_succ (attr pa : Word) {idx i : Nat} (h : idx < i) :
    sectionDesc attr (pa + pgdirSize) (idx + 1) i = sectionDesc attr pa idx i := by
  unfold sectionDesc
  have hstep : pgdirSize + BitVec.ofNat 32 ((i - (idx + 1)) * 2 ^ 20) =
      BitVec.ofNat 32 ((i - idx) * 2 ^ 20) := by
    apply BitVec.eq_of_toNat_eq
    rw [BitVec.toNat_add, BitVec.toNat_ofNat, BitVec.toNat_ofNat, pgdirSize_eq]
    change (2 ^ 20 + _) % 2 ^ 32 = _
    omega
  rw [BitVec.add_assoc, hstep]

theorem setSections_ok {attr pa : Word} {n idx : Nat} {st st' : XlatTables}
    (h : setSections attr n idx pa st = .ok st') : SectionsSet attr n idx pa st st' := by
  induction n generalizing idx pa st with
  | zero =>
    obtain rfl := Except.ok.inj h
    exact ⟨fun i h₁ h₂ => by omega, fun i h₁ h₂ => by omega, fun i _ => rfl, rfl, rfl, fun h => by omega⟩
  | succ n ih =>
    rw [setSections] at h
    split at h
    · cases h
    · rename_i hidx
      split at h
      · rename_i hmay
        have hrest := ih h
        have hlt : idx < 4096 := Nat.not_le.mp hidx
        refine ⟨fun i h₁ h₂ => ?_, fun i h₁ h₂ => ?_, fun i hi => ?_, hrest.l2, hrest.used, fun _ => ?_⟩
        · rcases Nat.eq_or_lt_of_le h₁ with rfl | hlt'
          · rw [sectionDesc_self]
            exact hmay
          · rw [← sectionDesc_succ attr pa hlt', ← st.setL1_l1_of_ne (pa ||| attr) (by omega : i ≠ idx)]
            exact hrest.may i (by omega) (by omega)
        · rcases Nat.eq_or_lt_of_le h₁ with rfl | hlt'
          · rw [hrest.same idx (by omega), st.setL1_l1_self, sectionDesc_self]
          · rw [hrest.set i (by omega) (by omega), sectionDesc_succ attr pa hlt']
        · rw [hrest.same i (by omega), st.setL1_l1_of_ne _ (by omega)]
        · rcases Nat.eq_zero_or_pos n with rfl | hn
          · omega
          · have hb := hrest.bound hn
            omega
      · cases h

/-- The descriptor of the page `pg` of an area. -/
def pageDesc (mm : MmapRegion) (attr : Word) (pg : Nat) : Word :=
  attr ||| ((mm.pa &&& ~~~sectionMask) + BitVec.ofNat 32 (pg * 4096))

/-- What a loop over a second level table leaves. -/
structure PagesSet (mm : MmapRegion) (attr : Word) (k n pg : Nat) (st st' : XlatTables) : Prop where
  may : ∀ p, pg ≤ p → p < pg + n → mayWrite (pageDesc mm attr p) (st.l2 k p) (pageDesc mm attr p)
  set : ∀ p, pg ≤ p → p < pg + n → st'.l2 k p = pageDesc mm attr p
  same : ∀ p, ¬ (pg ≤ p ∧ p < pg + n) → st'.l2 k p = st.l2 k p
  others : ∀ j, j ≠ k → st'.l2 j = st.l2 j
  l1 : st'.l1 = st.l1
  used : st'.used = st.used

theorem mapPages_ok {mm : MmapRegion} {attr : Word} {k n pg : Nat} {st st' : XlatTables}
    (hattr : attr ≠ 0) (h : mapPages mm attr k n pg st = .ok st') :
    PagesSet mm attr k n pg st st' := by
  induction n generalizing pg st with
  | zero =>
    obtain rfl := Except.ok.inj h
    exact ⟨fun p h₁ h₂ => by omega, fun p h₁ h₂ => by omega, fun p _ => rfl, fun j _ => rfl, rfl, rfl⟩
  | succ n ih =>
    rw [mapPages, if_pos hattr] at h
    change (if mayWrite (pageDesc mm attr pg) (st.l2 k pg) (pageDesc mm attr pg) then
      mapPages mm attr k n (pg + 1) (st.setL2 k pg (pageDesc mm attr pg)) else _) = _ at h
    split at h
    · rename_i hmay
      have hrest := ih h
      refine ⟨fun p h₁ h₂ => ?_, fun p h₁ h₂ => ?_, fun p hp => ?_, fun j hj => ?_, hrest.l1, hrest.used⟩
      · rcases Nat.eq_or_lt_of_le h₁ with rfl | hlt
        · exact hmay
        · rw [← st.setL2_l2_of_ne k (pageDesc mm attr pg) (by omega : p ≠ pg)]
          exact hrest.may p (by omega) (by omega)
      · rcases Nat.eq_or_lt_of_le h₁ with rfl | hlt
        · rw [hrest.same pg (by omega), st.setL2_l2_self]
        · exact hrest.set p (by omega) (by omega)
      · rw [hrest.same p (by omega), st.setL2_l2_of_ne k _ (by omega)]
      · rw [hrest.others j hj, st.setL2_l2_other pg _ hj]
    · cases h

/-! ## Entries -/

/-- The virtual addresses of an entry, in 32-bit arithmetic. -/
def MmapRegion.HasVa (r : MmapRegion) (x : Word) : Prop := x - r.va < r.size

/-- The entry is mapped in sections. -/
def MmapRegion.InSections (r : MmapRegion) : Prop :=
  (r.va ||| r.pa ||| r.size) &&& sectionMask = 0

instance (r : MmapRegion) (x : Word) : Decidable (r.HasVa x) := inferInstanceAs (Decidable (_ < _))

instance (r : MmapRegion) : Decidable r.InSections := inferInstanceAs (Decidable (_ = _))

/-- Where the part of an entry starts that is mapped together with an address: the part of the first
section, or the section of the address. -/
def MmapRegion.pieceStart (r : MmapRegion) (x : Word) : Word :=
  if x - r.va < pgdirSize - (r.va &&& sectionMask) then r.va else x &&& ~~~sectionMask

/-- The physical address that the pages of an entry lead to. -/
def MmapRegion.pagePa (r : MmapRegion) (x : Word) : Word :=
  ((r.pa + (r.pieceStart x - r.va)) &&& ~~~sectionMask) ||| (x &&& sectionMask)

/-- The translation of an address of an area of pages. -/
def MmapRegion.pageTranslation (cfg : XlatCfg) (r : MmapRegion) (x : Word) : Translation :=
  ⟨r.pagePa x, mattrToDesc1 cfg (r.attr ||| mattrTable), some (mattrToDesc2 cfg r.attr)⟩

/-- The translation of an address of the entry. -/
def MmapRegion.translation (cfg : XlatCfg) (r : MmapRegion) (x : Word) : Translation :=
  if r.InSections then ⟨r.pa + (x - r.va), mattrToDesc1 cfg r.attr, none⟩
  else r.pageTranslation cfg x

/-- The pairs of an entry. -/
def MmapRegion.Maps (cfg : XlatCfg) (r : MmapRegion) (x : Word) (t : Translation) : Prop :=
  r.HasVa x ∧ t = r.translation cfg x

theorem MmapRegion.hasVa_iff {r : MmapRegion} {x : Word} :
    r.HasVa x ↔ (x.toNat + (2 ^ 32 - r.va.toNat)) % 2 ^ 32 < r.size.toNat := by
  unfold MmapRegion.HasVa
  rw [BitVec.lt_def, BitVec.toNat_sub, Nat.add_comm]

theorem or_or_and_eq_zero {a b c m : Word} :
    (a ||| b ||| c) &&& m = 0#32 ↔ a &&& m = 0#32 ∧ b &&& m = 0#32 ∧ c &&& m = 0#32 := by
  rw [BitVec.and_or_distrib_right, BitVec.and_or_distrib_right, BitVec.or_eq_zero_iff,
    BitVec.or_eq_zero_iff, and_assoc]

theorem MmapRegion.inSections_iff {r : MmapRegion} :
    r.InSections ↔ r.va.toNat % 2 ^ 20 = 0 ∧ r.pa.toNat % 2 ^ 20 = 0 ∧ r.size.toNat % 2 ^ 20 = 0 := by
  refine or_or_and_eq_zero.trans ?_
  rw [and_section_eq_zero, and_section_eq_zero, and_section_eq_zero]

/-! ## The invariant -/

/-- Every second level table in use belongs to one entry of the first level table. -/
structure TablesOk (cfg : XlatCfg) (st : XlatTables) : Prop where
  owned : ∀ i k, Owns cfg (st.l1 i) k → k < st.used
  alone : ∀ i j k, Owns cfg (st.l1 i) k → Owns cfg (st.l1 j) k → i = j

theorem not_owns_of_section {cfg : XlatCfg} {desc : Word} {k : Nat}
    (h : getDescType1 desc = .section) : ¬ Owns cfg desc k := by
  intro hown
  have htype := hown.1
  rw [h] at htype
  cases htype

theorem not_owns_zero {cfg : XlatCfg} {k : Nat} : ¬ Owns cfg 0 k := by
  intro hown
  exact absurd hown.1 (by decide)

section Operations

variable {cfg : XlatCfg} {mm : MmapRegion} {st st' : XlatTables}

theorem numSections_eq {size : Word} (h : size.toNat % 2 ^ 20 = 0) :
    numSections size = size.toNat / 2 ^ 20 := by
  have hlt := size.isLt
  rw [numSections, toNat_shift20, pgdirSize_eq, toNat_roundUp (by decide) (by omega)]
  omega

theorem mapMemareaSections_extends (hdesc : DescOk cfg mm.attr) (halign : mm.InSections)
    (hst : TablesOk cfg st) (h : mapMemareaSections cfg mm st = .ok st') :
    TablesOk cfg st' ∧ Extends (st.walk cfg) (st'.walk cfg) (mm.Maps cfg) := by
  obtain ⟨hva, hpa, hsize⟩ := MmapRegion.inSections_iff.mp halign
  have hne : mattrToDesc1 cfg mm.attr ≠ 0 := by
    intro hzero
    have htype := hdesc.section_type
    rw [hzero] at htype
    cases htype
  unfold mapMemareaSections at h
  dsimp only at h
  split at h
  · rename_i hzero
    obtain rfl := Except.ok.inj h
    refine ⟨hst, (Extends.refl _).congr fun x t => ⟨False.elim, fun hmaps => ?_⟩⟩
    have hlt := hmaps.1
    unfold MmapRegion.HasVa at hlt
    rw [hzero] at hlt
    exact absurd hlt (BitVec.not_lt_zero)
  · rename_i hpos
    rw [numSections_eq hsize] at h
    have hset := setSections_ok h
    have hnat : mm.size.toNat ≠ 0 := fun hz => hpos (BitVec.eq_of_toNat_eq hz)
    have hbound := hset.bound (by omega)
    rw [toNat_shift20] at hset hbound
    have hin : ∀ x : Word, mm.HasVa x ↔ mm.va.toNat / 2 ^ 20 ≤ x.toNat / 2 ^ 20 ∧
        x.toNat / 2 ^ 20 < mm.va.toNat / 2 ^ 20 + mm.size.toNat / 2 ^ 20 := by
      intro x
      have hx := x.isLt
      rw [MmapRegion.hasVa_iff]
      omega
    have hbase : ∀ i, (mm.pa + BitVec.ofNat 32 ((i - mm.va.toNat / 2 ^ 20) * 2 ^ 20)).toNat % 2 ^ 20 = 0 := by
      intro i
      rw [BitVec.toNat_add, BitVec.toNat_ofNat]
      omega
    have htype : ∀ i, getDescType1 (sectionDesc (mattrToDesc1 cfg mm.attr) mm.pa
        (mm.va.toNat / 2 ^ 20) i) = .section := by
      intro i
      unfold sectionDesc
      rw [getDescType1_or (hbase i)]
      exact hdesc.section_type
    have hentry : ∀ i, getDescType1 (st'.l1 i) = .section ∨ st'.l1 i = st.l1 i := by
      intro i
      by_cases hi : mm.va.toNat / 2 ^ 20 ≤ i ∧ i < mm.va.toNat / 2 ^ 20 + mm.size.toNat / 2 ^ 20
      · left
        rw [hset.set i hi.1 hi.2]
        exact htype i
      · exact Or.inr (hset.same i hi)
    have hsame : ∀ x, ¬ mm.HasVa x → st'.walk cfg x = st.walk cfg x := by
      intro x hx
      refine walk_congr ?_ fun k _ => by rw [hset.l2]
      rw [toNat_shift20]
      exact hset.same _ fun hi => hx ((hin x).mpr hi)
    refine ⟨⟨fun i k hown => ?_, fun i j k hi hj => ?_⟩, fun x t hmaps => ?_, fun x hno => ?_,
      fun x t hwalk => ?_⟩
    · rcases hentry i with hsec | hold
      · exact absurd hown (not_owns_of_section hsec)
      · rw [hold] at hown
        rw [hset.used]
        exact hst.owned i k hown
    · rcases hentry i with hsec | hold
      · exact absurd hi (not_owns_of_section hsec)
      · rcases hentry j with hsec | hold'
        · exact absurd hj (not_owns_of_section hsec)
        · rw [hold] at hi
          rw [hold'] at hj
          exact hst.alone i j k hi hj
    · obtain ⟨hx, rfl⟩ := hmaps
      have hi := (hin x).mp hx
      have hl1 := hset.set (x.toNat / 2 ^ 20) hi.1 hi.2
      rw [← toNat_shift20] at hl1
      rw [walk_section (by rw [hl1]; exact htype _), hl1, sectionDesc,
        or_not_section (hbase _) hdesc.section_lt, or_section (hbase _) hdesc.section_lt,
        MmapRegion.translation, if_pos halign]
      refine congrArg some (congrArg (Translation.mk · (mattrToDesc1 cfg mm.attr) none) ?_)
      apply BitVec.eq_of_toNat_eq
      rw [toNat_or_of_aligned (hbase _) (by rw [toNat_section]; omega), toNat_section,
        toNat_shift20, BitVec.toNat_add, BitVec.toNat_add, BitVec.toNat_ofNat, BitVec.toNat_sub]
      omega
    · exact hsame x fun hx => hno _ ⟨hx, rfl⟩
    · by_cases hx : mm.HasVa x
      · have hi := (hin x).mp hx
        rcases hset.may (x.toNat / 2 ^ 20) hi.1 hi.2 with hz | hz | hold
        · exact absurd hz hne
        · rw [← toNat_shift20] at hz
          rw [walk_empty hz] at hwalk
          cases hwalk
        · rw [← hset.set _ hi.1 hi.2, ← toNat_shift20] at hold
          rw [walk_congr hold.symm fun k _ => by rw [hset.l2]]
          exact hwalk
      · rw [hsame x hx]
        exact hwalk

/-- An area of pages within one section. -/
structure MmapRegion.Piece (r : MmapRegion) : Prop where
  va : r.va.toNat % 2 ^ 12 = 0
  size : r.size.toNat % 2 ^ 12 = 0
  pos : 0 < r.size.toNat
  within : r.va.toNat % 2 ^ 20 + r.size.toNat ≤ 2 ^ 20

/-- The second level table `k` for an area, in the tables `st'`. -/
inductive L2Found (cfg : XlatCfg) (xlat : Word) (st : XlatTables) (k : Nat) (st' : XlatTables) : Prop
  | fresh (none : xlat = 0) (eq : k = st.used) (used : st'.used = st.used + 1)
    (empty : ∀ pg, st'.l2 k pg = 0) (others : ∀ j, j ≠ k → st'.l2 j = st.l2 j)
  | shared (some : xlat ≠ 0) (eq : st' = st)

theorem coreMmuAllocL2_ok {k : Nat} {xlat : Word} (hpiece : mm.Piece) (hxlat : xlat = 0)
    (h : coreMmuAllocL2 mm.size st = some (k, st')) :
    k < 8 ∧ st'.l1 = st.l1 ∧ L2Found cfg xlat st k st' := by
  have hone : (roundUp mm.size 0x100000).toNat / 0x100000 = 1 := by
    have hpos := hpiece.pos
    have hwithin := hpiece.within
    have hround := @toNat_roundUp mm.size 20 (by decide) (by omega)
    change (roundUp mm.size 0x100000).toNat = _ at hround
    rw [hround]
    omega
  unfold coreMmuAllocL2 at h
  rw [hone] at h
  dsimp only at h
  split at h
  · cases h
  · rename_i hle
    obtain ⟨rfl, rfl⟩ := Prod.mk.inj (Option.some.inj h)
    have hlt : st.used < 8 := by
      unfold maxXlatTables at hle
      omega
    refine ⟨hlt, rfl, .fresh hxlat rfl rfl (fun pg => ?_) fun j hj => ?_⟩
    · exact if_pos ⟨Nat.le_refl _, Nat.lt_succ_self _⟩
    · funext pg
      exact if_neg fun hin => hj (by omega)

theorem mapPageMemarea_ok {map : List MmapRegion} {xlat pa : Word} (hdesc : DescOk cfg mm.attr)
    (hpiece : mm.Piece) (h : mapPageMemarea cfg map mm xlat st = .ok (pa, st')) :
    ∃ k st₁, k < 8 ∧ pa = cfg.l2Addr k ∧ st₁.l1 = st.l1 ∧ L2Found cfg xlat st k st₁ ∧
      PagesSet mm (mattrToDesc2 cfg mm.attr) k (mm.size.toNat / 2 ^ 12)
        (mm.va.toNat % 2 ^ 20 / 2 ^ 12) st₁ st' := by
  have hne : mattrToDesc2 cfg mm.attr ≠ 0 := by
    intro hzero
    have htype := hdesc.page_type
    rw [hzero] at htype
    cases htype
  have hva := hpiece.va
  have hsize := hpiece.size
  have hwithin := hpiece.within
  have hpages : ((mm.size + (mm.va &&& sectionMask)).toNat + 4095) / 4096 -
      ((mm.va &&& sectionMask) >>> 12).toNat = mm.size.toNat / 2 ^ 12 := by
    rw [toNat_shift12, BitVec.toNat_add, toNat_section]
    omega
  have hstart : ((mm.va &&& sectionMask) >>> 12).toNat = mm.va.toNat % 2 ^ 20 / 2 ^ 12 := by
    rw [toNat_shift12, toNat_section]
  unfold mapPageMemarea at h
  dsimp only at h
  rw [hpages, hstart] at h
  split at h
  · cases h
  · rename_i k st₁ hl2
    obtain ⟨st₂, hrun, h⟩ := except_bind_ok h
    obtain ⟨rfl, rfl⟩ := Prod.mk.inj (Except.ok.inj h)
    have hset := mapPages_ok hne hrun
    split at hl2
    · rename_i hxlat
      obtain ⟨hk, hl1, hfound⟩ := @coreMmuAllocL2_ok cfg mm st st₁ k xlat hpiece hxlat hl2
      exact ⟨k, st₁, hk, rfl, hl1, hfound, hset⟩
    · rename_i hxlat
      obtain ⟨j, hj, heq⟩ := Option.map_eq_some_iff.mp hl2
      obtain ⟨rfl, rfl⟩ := Prod.mk.inj heq
      exact ⟨j, st, lt_of_tableAt hj, rfl, rfl, .shared hxlat rfl, hset⟩

/-- The page of a piece that an address is in. -/
theorem MmapRegion.Piece.hasVa_iff (h : mm.Piece) (x : Word) :
    mm.HasVa x ↔ x.toNat / 2 ^ 20 = mm.va.toNat / 2 ^ 20 ∧
      mm.va.toNat % 2 ^ 20 / 2 ^ 12 ≤ x.toNat / 2 ^ 12 % 256 ∧
      x.toNat / 2 ^ 12 % 256 < mm.va.toNat % 2 ^ 20 / 2 ^ 12 + mm.size.toNat / 2 ^ 12 := by
  have hva := h.va
  have hsize := h.size
  have hwithin := h.within
  have hx := x.isLt
  have hv := mm.va.isLt
  rw [MmapRegion.hasVa_iff]
  omega

theorem toNat_sectionRest (v : Word) :
    (pgdirSize - (v &&& sectionMask)).toNat = 2 ^ 20 - v.toNat % 2 ^ 20 := by
  have hle : v &&& sectionMask ≤ pgdirSize := by
    rw [BitVec.le_def, toNat_section]
    exact Nat.le_of_lt (Nat.mod_lt _ (by decide))
  rw [BitVec.toNat_sub_of_le hle, toNat_section]
  rfl

theorem MmapRegion.Piece.pagePa (h : mm.Piece) {x : Word} (hx : mm.HasVa x) :
    mm.pagePa x = (mm.pa &&& ~~~sectionMask) ||| (x &&& sectionMask) := by
  have hwithin := h.within
  have hlt : x - mm.va < pgdirSize - (mm.va &&& sectionMask) := by
    have hnat : (x - mm.va).toNat < mm.size.toNat := hx
    rw [BitVec.lt_def, toNat_sectionRest]
    omega
  unfold MmapRegion.pagePa MmapRegion.pieceStart
  rw [if_pos hlt, BitVec.sub_self, BitVec.add_zero]

/-- What mapping a piece does: the table `k` of its section gets its pages. -/
structure PieceSet (cfg : XlatCfg) (mm : MmapRegion) (k : Nat) (st st' : XlatTables) : Prop where
  lt : k < 8
  l1 : st'.l1 (mm.va.toNat / 2 ^ 20) =
    cfg.l2Addr k ||| mattrToDesc1 cfg (mm.attr ||| mattrTable)
  l1_same : ∀ i, i ≠ mm.va.toNat / 2 ^ 20 → st'.l1 i = st.l1 i
  l2_same : ∀ j, j ≠ k → st'.l2 j = st.l2 j
  free : ∀ i, i ≠ mm.va.toNat / 2 ^ 20 → ¬ Owns cfg (st.l1 i) k
  set : ∀ x, mm.HasVa x → st'.l2 k (x.toNat / 2 ^ 12 % 256) =
    pageDesc mm (mattrToDesc2 cfg mm.attr) (x.toNat / 2 ^ 12 % 256)
  origin : (st.l1 (mm.va.toNat / 2 ^ 20) = 0 ∧ k = st.used ∧ st'.used = st.used + 1 ∧
      ∀ x, x.toNat / 2 ^ 20 = mm.va.toNat / 2 ^ 20 → ¬ mm.HasVa x →
        st'.l2 k (x.toNat / 2 ^ 12 % 256) = 0) ∨
    (st.l1 (mm.va.toNat / 2 ^ 20) = st'.l1 (mm.va.toNat / 2 ^ 20) ∧ st'.used = st.used ∧
      (∀ x, mm.HasVa x → st.l2 k (x.toNat / 2 ^ 12 % 256) = 0 ∨
        st.l2 k (x.toNat / 2 ^ 12 % 256) = st'.l2 k (x.toNat / 2 ^ 12 % 256)) ∧
      ∀ x, x.toNat / 2 ^ 20 = mm.va.toNat / 2 ^ 20 → ¬ mm.HasVa x →
        st'.l2 k (x.toNat / 2 ^ 12 % 256) = st.l2 k (x.toNat / 2 ^ 12 % 256))

theorem pageDesc_type (hdesc : DescOk cfg mm.attr) (pg : Nat) :
    getDescType2 (pageDesc mm (mattrToDesc2 cfg mm.attr) pg) = .smallPage := by
  have hbase : ((mm.pa &&& ~~~sectionMask) + BitVec.ofNat 32 (pg * 4096)).toNat % 2 ^ 12 = 0 := by
    rw [BitVec.toNat_add, toNat_not_section, BitVec.toNat_ofNat]
    omega
  unfold pageDesc
  rw [BitVec.or_comm, getDescType2_or hbase]
  exact hdesc.page_type

theorem pieceSet_of_ok {map : List MmapRegion} (hdesc : DescOk cfg mm.attr) (hpiece : mm.Piece)
    (hst : TablesOk cfg st) (h : mapPageMemareaInPgdirs cfg map mm st = .ok st') :
    ∃ k, PieceSet cfg mm k st st' := by
  have hpos := hpiece.pos
  have hwithin := hpiece.within
  have hsections : numSections mm.size = 1 := by
    rw [numSections, toNat_shift20, pgdirSize_eq, toNat_roundUp (by decide) (by omega)]
    omega
  have hsize : mm.size ≠ 0 := by
    intro hz
    rw [hz] at hpos
    exact absurd hpos (by decide)
  unfold mapPageMemareaInPgdirs at h
  dsimp only at h
  rw [if_neg hsize, if_pos hdesc.valid, hsections, toNat_shift20] at h
  obtain ⟨⟨pa, st₂⟩, hpages, h⟩ := except_bind_ok h
  obtain ⟨k, st₁, hk, rfl, hl1, hfound, hset⟩ := mapPageMemarea_ok hdesc hpiece hpages
  have hsec := setSections_ok h
  have hold : st₂.l1 = st.l1 := hset.l1.trans hl1
  have hnew : st'.l1 (mm.va.toNat / 2 ^ 20) =
      cfg.l2Addr k ||| mattrToDesc1 cfg (mm.attr ||| mattrTable) := by
    rw [hsec.set _ (Nat.le_refl _) (Nat.lt_succ_self _), sectionDesc_self]
  have hown : Owns cfg (st'.l1 (mm.va.toNat / 2 ^ 20)) k := by
    rw [hnew]
    exact owns_l2Addr hk hdesc.table_type hdesc.table_lt
  have hdescNe : ∀ pg, pageDesc mm (mattrToDesc2 cfg mm.attr) pg ≠ 0 := by
    intro pg hz
    have htype := pageDesc_type hdesc pg
    rw [hz] at htype
    cases htype
  have hout : ∀ x : Word, x.toNat / 2 ^ 20 = mm.va.toNat / 2 ^ 20 → ¬ mm.HasVa x →
      st'.l2 k (x.toNat / 2 ^ 12 % 256) = st₁.l2 k (x.toNat / 2 ^ 12 % 256) := by
    intro x hx hno
    rw [hsec.l2]
    exact hset.same _ fun hin => hno ((hpiece.hasVa_iff x).mpr ⟨hx, hin⟩)
  refine ⟨k, hk, hnew, fun i hi => ?_, fun j hj => ?_, fun i hi => ?_, fun x hx => ?_, ?_⟩
  · rw [hsec.same i (by omega), hold]
  · rw [hsec.l2, hset.others j hj]
    cases hfound with
    | fresh _ _ _ _ hothers => exact hothers j hj
    | shared _ heq => rw [heq]
  · intro howni
    cases hfound with
    | fresh _ hkeq _ _ _ =>
      have hlt := hst.owned i k howni
      omega
    | shared hxlat heq =>
      rcases hsec.may _ (Nat.le_refl _) (Nat.lt_succ_self _) with hz | hz | hsame
      · have htype := hdesc.table_type
        rw [hz] at htype
        cases htype
      · rw [hold] at hz
        exact hxlat hz
      · rw [hold, ← hsec.set _ (Nat.le_refl _) (Nat.lt_succ_self _)] at hsame
        rw [← hsame] at hown
        exact hi (hst.alone _ _ k howni hown)
  · obtain ⟨-, hlo, hhi⟩ := (hpiece.hasVa_iff x).mp hx
    rw [hsec.l2]
    exact hset.set _ hlo hhi
  · cases hfound with
    | fresh hxlat hkeq hused hempty _ =>
      refine Or.inl ⟨hxlat, hkeq, ?_, fun x hx hno => ?_⟩
      · rw [hsec.used, hset.used, hused]
      · rw [hout x hx hno]
        exact hempty _
    | shared hxlat heq =>
      subst heq
      refine Or.inr ⟨?_, hsec.used.trans hset.used, fun x hx => ?_, hout⟩
      · rcases hsec.may _ (Nat.le_refl _) (Nat.lt_succ_self _) with hz | hz | hsame
        · have htype := hdesc.table_type
          rw [hz] at htype
          cases htype
        · rw [hold] at hz
          exact absurd hz hxlat
        · rw [hold, ← hsec.set _ (Nat.le_refl _) (Nat.lt_succ_self _)] at hsame
          exact hsame
      · obtain ⟨-, hlo, hhi⟩ := (hpiece.hasVa_iff x).mp hx
        rw [hsec.l2, hset.set _ hlo hhi]
        rcases hset.may _ hlo hhi with hz | hz | hsame
        · exact absurd hz (hdescNe _)
        · exact Or.inl hz
        · exact Or.inr hsame

theorem PieceSet.own {k : Nat} (h : PieceSet cfg mm k st st') (hdesc : DescOk cfg mm.attr) :
    Owns cfg (st'.l1 (mm.va.toNat / 2 ^ 20)) k := by
  rw [h.l1]
  exact owns_l2Addr h.lt hdesc.table_type hdesc.table_lt

theorem PieceSet.tablesOk {k : Nat} (h : PieceSet cfg mm k st st') (hdesc : DescOk cfg mm.attr)
    (hst : TablesOk cfg st) : TablesOk cfg st' := by
  have hown := h.own hdesc
  have hused : st.used ≤ st'.used ∧ k < st'.used := by
    rcases h.origin with ⟨-, hk, hu, -⟩ | ⟨hl1, hu, -⟩
    · omega
    · rw [← hl1] at hown
      have hlt := hst.owned _ k hown
      omega
  constructor
  · intro i j hi
    by_cases hidx : i = mm.va.toNat / 2 ^ 20
    · rw [hidx] at hi
      obtain rfl := hi.inj hown
      exact hused.2
    · rw [h.l1_same i hidx] at hi
      exact Nat.lt_of_lt_of_le (hst.owned i j hi) hused.1
  · intro i j n hi hj
    by_cases hidx : i = mm.va.toNat / 2 ^ 20
    · by_cases hjdx : j = mm.va.toNat / 2 ^ 20
      · rw [hidx, hjdx]
      · rw [hidx] at hi
        obtain rfl := hi.inj hown
        rw [h.l1_same j hjdx] at hj
        exact absurd hj (h.free j hjdx)
    · rw [h.l1_same i hidx] at hi
      by_cases hjdx : j = mm.va.toNat / 2 ^ 20
      · rw [hjdx] at hj
        obtain rfl := hj.inj hown
        exact absurd hi (h.free i hidx)
      · rw [h.l1_same j hjdx] at hj
        exact hst.alone i j n hi hj

/-- The page of an address in a piece, as the lookup sees it. -/
theorem pageDesc_translation (hdesc : DescOk cfg mm.attr) (hpiece : mm.Piece) {x : Word}
    (hx : mm.HasVa x) {page : Word}
    (hpage : page = pageDesc mm (mattrToDesc2 cfg mm.attr) (x.toNat / 2 ^ 12 % 256)) :
    (page &&& ~~~smallPageMask) ||| (x &&& smallPageMask) = mm.pagePa x ∧
      page &&& smallPageMask = mattrToDesc2 cfg mm.attr := by
  have hbase : ((mm.pa &&& ~~~sectionMask) +
      BitVec.ofNat 32 (x.toNat / 2 ^ 12 % 256 * 4096)).toNat % 2 ^ 12 = 0 := by
    rw [BitVec.toNat_add, toNat_not_section, BitVec.toNat_ofNat]
    omega
  rw [hpage, pageDesc, BitVec.or_comm (mattrToDesc2 cfg mm.attr), or_not_page hbase hdesc.page_lt, or_page hbase hdesc.page_lt,
    hpiece.pagePa hx]
  refine ⟨BitVec.eq_of_toNat_eq ?_, rfl⟩
  have hpa := mm.pa.isLt
  have hx' := x.isLt
  rw [toNat_or_of_aligned hbase (by rw [toNat_page]; omega),
    @toNat_or_of_aligned 32 (mm.pa &&& ~~~sectionMask) (x &&& sectionMask) 20
      (by rw [toNat_not_section]; omega) (by rw [toNat_section]; omega),
    BitVec.toNat_add, toNat_not_section, toNat_section, toNat_page, BitVec.toNat_ofNat]
  omega

theorem PieceSet.extends {k : Nat} (h : PieceSet cfg mm k st st') (hdesc : DescOk cfg mm.attr)
    (hpiece : mm.Piece) :
    Extends (st.walk cfg) (st'.walk cfg) fun x t => mm.HasVa x ∧ t = mm.pageTranslation cfg x := by
  have hown := h.own hdesc
  have hother : ∀ x : Word, x.toNat / 2 ^ 20 ≠ mm.va.toNat / 2 ^ 20 →
      st'.walk cfg x = st.walk cfg x := by
    intro x hx
    refine walk_congr ?_ fun j hj => ?_
    · rw [toNat_shift20]
      exact h.l1_same _ hx
    · rw [toNat_shift20] at hj
      have hjk : j ≠ k := by
        rintro rfl
        exact h.free _ hx hj
      rw [h.l2_same j hjk]
  have hownx : ∀ x : Word, x.toNat / 2 ^ 20 = mm.va.toNat / 2 ^ 20 →
      Owns cfg (st'.l1 (x >>> 20).toNat) k := by
    intro x hx
    rw [toNat_shift20, hx]
    exact hown
  -- a section that had a table keeps it, so only its pages can differ
  have hkeep : ∀ x : Word, x.toNat / 2 ^ 20 = mm.va.toNat / 2 ^ 20 →
      st.l1 (mm.va.toNat / 2 ^ 20) = st'.l1 (mm.va.toNat / 2 ^ 20) →
      st'.l2 k (x.toNat / 2 ^ 12 % 256) = st.l2 k (x.toNat / 2 ^ 12 % 256) →
      st'.walk cfg x = st.walk cfg x := by
    intro x hx hl1 hl2
    have hl1' : st'.l1 (x >>> 20).toNat = st.l1 (x >>> 20).toNat := by
      rw [toNat_shift20, hx]
      exact hl1.symm
    refine walk_congr hl1' fun j hj => ?_
    rw [← hl1'] at hj
    obtain rfl := hj.inj (hownx x hx)
    rw [toNat_shift12]
    exact hl2
  refine ⟨fun x t hmaps => ?_, fun x hno => ?_, fun x t hwalk => ?_⟩
  · obtain ⟨hx, rfl⟩ := hmaps
    have hsec := ((hpiece.hasVa_iff x).mp hx).1
    have hpage := h.set x hx
    obtain ⟨hpa, hflags⟩ := pageDesc_translation hdesc hpiece hx hpage
    rw [walk_table (hownx x hsec), toNat_shift12]
    rw [if_pos (by rw [hpage]; exact pageDesc_type hdesc _), hpa, hflags, toNat_shift20, hsec, h.l1,
      or_table (l2Addr_aligned cfg k) hdesc.table_lt]
    rfl
  · have hout : ¬ mm.HasVa x := fun hx => hno _ ⟨hx, rfl⟩
    by_cases hsec : x.toNat / 2 ^ 20 = mm.va.toNat / 2 ^ 20
    · rcases h.origin with ⟨hzero, -, -, hempty⟩ | ⟨hl1, -, -, hrest⟩
      · have hpage := hempty x hsec hout
        rw [walk_table (hownx x hsec), toNat_shift12, hpage, if_neg (by decide)]
        refine (walk_empty ?_).symm
        rw [toNat_shift20, hsec]
        exact hzero
      · exact hkeep x hsec hl1 (hrest x hsec hout)
    · exact hother x hsec
  · by_cases hsec : x.toNat / 2 ^ 20 = mm.va.toNat / 2 ^ 20
    · rcases h.origin with ⟨hzero, -⟩ | ⟨hl1, -, hmay, hrest⟩
      · rw [walk_empty (by rw [toNat_shift20, hsec]; exact hzero)] at hwalk
        cases hwalk
      · rw [hkeep x hsec hl1 ?_]
        · exact hwalk
        · by_cases hx : mm.HasVa x
          · rcases hmay x hx with hz | hsame
            · -- an empty page has no translation
              have hownold : Owns cfg (st.l1 (x >>> 20).toNat) k := by
                rw [toNat_shift20, hsec, hl1]
                exact hown
              rw [walk_table hownold, toNat_shift12, hz, if_neg (by decide)] at hwalk
              cases hwalk
            · exact hsame.symm
          · exact hrest x hsec hx
    · rw [hother x hsec]
      exact hwalk

/-! ## Whole entries -/

theorem toNat_pieceSize (size : Word) :
    (pieceSize mm size).toNat = min size.toNat (2 ^ 20 - mm.va.toNat % 2 ^ 20) := by
  have hround : (roundDown mm.va pgdirSize).toNat = mm.va.toNat / 2 ^ 20 * 2 ^ 20 :=
    toNat_not_section mm.va
  have hle : roundDown mm.va pgdirSize ≤ mm.va := by
    rw [BitVec.le_def, hround]
    exact Nat.div_mul_le_self _ _
  have hoff : mm.va - roundDown mm.va pgdirSize = mm.va &&& sectionMask := by
    apply BitVec.eq_of_toNat_eq
    rw [BitVec.toNat_sub_of_le hle, hround, toNat_section]
    omega
  rw [pieceSize, toNat_wordMin, hoff, toNat_sectionRest]

theorem piece_of_part {part : Word} (hva : mm.va.toNat % 2 ^ 12 = 0) (hpart : part.toNat % 2 ^ 12 = 0)
    (hpos : 0 < part.toNat) (hwithin : mm.va.toNat % 2 ^ 20 + part.toNat ≤ 2 ^ 20) :
    ({ mm with size := part } : MmapRegion).Piece :=
  ⟨hva, hpart, hpos, hwithin⟩

/-- The addresses of an area are those of its first part and those of the rest. -/
theorem sub_lt_iff_of_part {x va size part : Word} (hle : part ≤ size) :
    x - va < size ↔ x - va < part ∨ x - (va + part) < size - part := by
  have hsub := BitVec.toNat_sub_of_le hle
  have hle' : part.toNat ≤ size.toNat := hle
  have hsize := size.isLt
  have hoff := (x - va).isLt
  have hrest : (x - (va + part)).toNat = ((x - va).toNat + (2 ^ 32 - part.toNat)) % 2 ^ 32 := by
    rw [← BitVec.sub_sub, BitVec.toNat_sub, Nat.add_comm]
  rw [BitVec.lt_def, BitVec.lt_def, BitVec.lt_def, hrest, hsub]
  omega

/-- If there is a rest, it starts with a section. -/
theorem rest_of_lt {x size part : Word} (hle : part ≤ size)
    (hmin : part.toNat = min size.toNat (2 ^ 20 - mm.va.toNat % 2 ^ 20))
    (h : x - (mm.va + part) < size - part) :
    (mm.va + part).toNat % 2 ^ 20 = 0 ∧ 2 ^ 20 - mm.va.toNat % 2 ^ 20 ≤ (x - mm.va).toNat := by
  have hsize := size.isLt
  have hva := mm.va.isLt
  have hoff := (x - mm.va).isLt
  have hle' : part.toNat ≤ size.toNat := hle
  have hrest : (x - (mm.va + part)).toNat = ((x - mm.va).toNat + (2 ^ 32 - part.toNat)) % 2 ^ 32 := by
    rw [← BitVec.sub_sub, BitVec.toNat_sub, Nat.add_comm]
  rw [BitVec.lt_def, BitVec.toNat_sub_of_le hle, hrest] at h
  rw [BitVec.toNat_add]
  generalize (x - mm.va).toNat = off at h hoff ⊢
  constructor
  · omega
  · omega

/-- After the first section, the parts of an area start with their sections. -/
theorem pieceStart_of_le {x : Word} (h : 2 ^ 20 - mm.va.toNat % 2 ^ 20 ≤ (x - mm.va).toNat) :
    mm.pieceStart x = x &&& ~~~sectionMask := by
  unfold MmapRegion.pieceStart
  rw [if_neg]
  rw [BitVec.lt_def, toNat_sectionRest]
  omega

theorem pieceStart_of_aligned {x : Word} (h : mm.va.toNat % 2 ^ 20 = 0) :
    mm.pieceStart x = x &&& ~~~sectionMask := by
  by_cases hlt : 2 ^ 20 - mm.va.toNat % 2 ^ 20 ≤ (x - mm.va).toNat
  · exact pieceStart_of_le hlt
  · have hx := x.isLt
    have hv := mm.va.isLt
    have hsub : (x - mm.va).toNat = (x.toNat + (2 ^ 32 - mm.va.toNat)) % 2 ^ 32 := by
      rw [BitVec.toNat_sub, Nat.add_comm]
    unfold MmapRegion.pieceStart
    rw [if_pos (by rw [BitVec.lt_def, toNat_sectionRest]; omega)]
    apply BitVec.eq_of_toNat_eq
    rw [toNat_not_section]
    omega

theorem hasVa_with_size (part x : Word) :
    ({ mm with size := part } : MmapRegion).HasVa x ↔ x - mm.va < part := by
  unfold MmapRegion.HasVa
  rfl

theorem pageTranslation_with_size (part x : Word) :
    ({ mm with size := part } : MmapRegion).pageTranslation cfg x = mm.pageTranslation cfg x := rfl

theorem add_part_sub (pa va part start : Word) :
    pa + part + (start - (va + part)) = pa + (start - va) := by bv_omega

/-- The pages of the rest lead where those of the whole area lead. -/
theorem pageTranslation_rest {x part : Word} (haligned : (mm.va + part).toNat % 2 ^ 20 = 0)
    (h : 2 ^ 20 - mm.va.toNat % 2 ^ 20 ≤ (x - mm.va).toNat) :
    ({ mm with pa := mm.pa + part, va := mm.va + part } : MmapRegion).pageTranslation cfg x =
      mm.pageTranslation cfg x := by
  have hrest := @pieceStart_of_aligned { mm with pa := mm.pa + part, va := mm.va + part } x haligned
  unfold MmapRegion.pageTranslation MmapRegion.pagePa
  rw [hrest, pieceStart_of_le h]
  dsimp only
  rw [add_part_sub]

theorem mapPieces_extends {map : List MmapRegion} {fuel : Nat} {size : Word}
    (hdesc : DescOk cfg mm.attr) (hva : mm.va.toNat % 2 ^ 12 = 0) (hsize : size.toNat % 2 ^ 12 = 0)
    (hfuel : size.toNat ≤ fuel) (hst : TablesOk cfg st)
    (h : mapPieces cfg map fuel mm size st = .ok st') :
    TablesOk cfg st' ∧ Extends (st.walk cfg) (st'.walk cfg) fun x t =>
      x - mm.va < size ∧ t = mm.pageTranslation cfg x := by
  induction fuel generalizing mm size st with
  | zero =>
    obtain rfl := Except.ok.inj h
    refine ⟨hst, (Extends.refl _).congr fun x t => ⟨False.elim, fun hx => ?_⟩⟩
    have hlt : (x - mm.va).toNat < size.toNat := hx.1
    omega
  | succ fuel ih =>
    rw [mapPieces] at h
    split at h
    · rename_i hzero
      obtain rfl := Except.ok.inj h
      refine ⟨hst, (Extends.refl _).congr fun x t => ⟨False.elim, fun hx => ?_⟩⟩
      rw [hzero] at hx
      exact absurd hx.1 BitVec.not_lt_zero
    · rename_i hpos
      have hnat : size.toNat ≠ 0 := fun hz => hpos (BitVec.eq_of_toNat_eq hz)
      have hpart := @toNat_pieceSize mm size
      dsimp only at h
      generalize hpart : pieceSize mm size = part at h
      generalize hpa' : mm.pa + part = pa' at h
      generalize hva' : mm.va + part = va' at h
      have hmin : part.toNat = min size.toNat (2 ^ 20 - mm.va.toNat % 2 ^ 20) := by
        rw [← hpart]
        exact toNat_pieceSize size
      have hle : part ≤ size := by
        rw [BitVec.le_def]
        omega
      have hsub := BitVec.toNat_sub_of_le hle
      have hmod : part.toNat % 2 ^ 12 = 0 := by omega
      obtain ⟨st₁, hfirst, hrest⟩ := except_bind_ok h
      have hpiece := @piece_of_part mm part hva hmod (by omega) (by omega)
      obtain ⟨k, hset⟩ := @pieceSet_of_ok cfg { mm with size := part } st st₁ map hdesc hpiece hst hfirst
      have hmod' : va'.toNat % 2 ^ 12 = 0 := by
        rw [← hva', BitVec.toNat_add]
        omega
      obtain ⟨hst', hext⟩ := @ih { mm with pa := pa', va := va' } st₁ (size - part) hdesc hmod'
        (by omega) (by omega) (hset.tablesOk hdesc hst) hrest
      refine ⟨hst', ((hset.extends hdesc hpiece).trans hext).congr fun x t => ?_⟩
      rw [hasVa_with_size, pageTranslation_with_size]
      dsimp only
      rw [@sub_lt_iff_of_part x mm.va size part hle, or_and_right, hva']
      refine or_congr Iff.rfl (and_congr_right fun hlt => ?_)
      rw [← hva'] at hlt
      obtain ⟨haligned, hlater⟩ := rest_of_lt hle hmin hlt
      rw [← hva', ← hpa', pageTranslation_rest haligned hlater]

/-- One entry of the memory map extends the lookup by its pairs. -/
theorem mapMemarea_extends {map : List MmapRegion} (hdesc : DescOk cfg mm.attr)
    (hst : TablesOk cfg st) (h : mapMemarea cfg map st mm = .ok st') :
    TablesOk cfg st' ∧ Extends (st.walk cfg) (st'.walk cfg) (mm.Maps cfg) := by
  unfold mapMemarea at h
  split at h
  · cases h
  · split at h
    · rename_i halign
      exact mapMemareaSections_extends hdesc halign hst h
    · rename_i hsections
      split at h
      · cases h
      · rename_i hpage
        obtain ⟨hva, -, hsize⟩ := or_or_and_eq_zero.mp (not_not.mp hpage)
        rw [and_page_eq_zero] at hva hsize
        obtain ⟨hst', hext⟩ := mapPieces_extends hdesc hva hsize (Nat.le_refl _) hst h
        refine ⟨hst', hext.congr fun x t => ?_⟩
        have hnot : ¬ mm.InSections := hsections
        unfold MmapRegion.Maps MmapRegion.HasVa MmapRegion.translation
        rw [if_neg hnot]

end Operations

/-! ## The whole map -/

theorem mem_mapAttrs_of_mapped {r : MmapRegion} (hattr : coreMmuTypeToAttr r.type = .ok r.attr)
    (hdyn : r.isDynamicVaspace = false) : r.attr ∈ mapAttrs := by
  refine mem_mapAttrs hattr fun hzero => ?_
  rw [hzero] at hattr
  unfold MmapRegion.isDynamicVaspace at hdyn
  cases htype : r.type <;> rw [htype] at hattr hdyn <;>
    first | exact absurd hdyn (by decide) | exact absurd (Except.ok.inj hattr) (by decide) | cases hattr

theorem mem_of_mappedEntries {map : List MmapRegion} {q : MmapRegion} (h : q ∈ mappedEntries map) :
    q ∈ map ∧ q.isDynamicVaspace = false := by
  obtain ⟨htake, hdyn⟩ := List.mem_filter.mp h
  exact ⟨(List.takeWhile_sublist _).subset htake, Bool.not_eq_true' _ ▸ hdyn⟩

/-- After the whole memory map is entered, the lookup has the pairs of the mapped entries. -/
theorem walk_iff {cfg : XlatCfg} {map : List MmapRegion} {l2 : Nat → Nat → Word} {st : XlatTables}
    (hattr : ∀ r ∈ map, coreMmuTypeToAttr r.type = .ok r.attr)
    (h : coreInitMmuTables cfg map l2 = .ok st) (x : Word) (t : Translation) :
    st.walk cfg x = some t ↔ ∃ r ∈ mappedEntries map, r.Maps cfg x t := by
  have hstart : TablesOk cfg { l1 := fun _ => 0, l2 := l2, used := 0 } :=
    ⟨fun i k hown => absurd hown not_owns_zero, fun i j k hown => absurd hown not_owns_zero⟩
  have hstep : ∀ r ∈ mappedEntries map, ∀ st st', TablesOk cfg st → mapMemarea cfg map st r = .ok st' →
      TablesOk cfg st' ∧ Extends (st.walk cfg) (st'.walk cfg) (r.Maps cfg) := by
    intro r hr st st' hst hrun
    obtain ⟨hmem, hdyn⟩ := mem_of_mappedEntries hr
    have hdesc := descOk_of_mem cfg (mem_mapAttrs_of_mapped (hattr r hmem) hdyn)
    exact mapMemarea_extends hdesc hst hrun
  obtain ⟨-, hext⟩ := @extends_foldlM Word Translation MmapRegion XlatTables Fault
    (mapMemarea cfg map) (fun st => st.walk cfg) (TablesOk cfg) (fun r => r.Maps cfg)
    (mappedEntries map) _ st
    hstep hstart h
  have hempty : XlatTables.walk cfg { l1 := fun _ => 0, l2 := l2, used := 0 } = fun _ => none :=
    funext fun x => walk_empty rfl
  rw [hempty] at hext
  exact hext.of_empty x t

/-! ## Agreement with the map -/

/-- The descriptors of a translation have an attribute. -/
def HasAttr (cfg : XlatCfg) (attr : Word) (t : Translation) : Prop :=
  (t.level1 = mattrToDesc1 cfg attr ∧ t.level2 = none) ∨
    (t.level1 = mattrToDesc1 cfg (attr ||| mattrTable) ∧ t.level2 = some (mattrToDesc2 cfg attr))

/-- The tables implement the map: the addresses of each entry that is not reserved lead to its memory,
with its attributes, and no other address leads anywhere. -/
structure TablesRight (cfg : XlatCfg) (map : List MmapRegion) (st : XlatTables) : Prop where
  regions : ∀ r ∈ map, r.isDynamicVaspace = false → ∀ x, r.HasVa x →
    ∃ t, st.walk cfg x = some t ∧ t.pa = r.pa + (x - r.va) ∧ HasAttr cfg r.attr t
  outside : ∀ x, (∀ r ∈ map, r.isDynamicVaspace = false → ¬ r.HasVa x) → st.walk cfg x = none

/-- The physical and the virtual address have the same offset in their sections. -/
def MmapRegion.SameOffset (r : MmapRegion) : Prop := r.pa.toNat % 2 ^ 20 = r.va.toNat % 2 ^ 20

instance (r : MmapRegion) : Decidable r.SameOffset := inferInstanceAs (Decidable (_ = _))

/-- Both addresses of each entry have the same offset, and each address of an entry is one of an entry
before the first empty one that leads to the same memory. -/
def MapFits (map : List MmapRegion) : Prop :=
  ∀ r ∈ map, r.isDynamicVaspace = false → r.size ≠ 0 → r.SameOffset ∧
    ∀ x, r.HasVa x → ∃ q ∈ mappedEntries map, q.HasVa x ∧ q.pa - q.va = r.pa - r.va ∧ q.attr = r.attr

section Agreement

variable {cfg : XlatCfg} {map : List MmapRegion} {st : XlatTables} {r q : MmapRegion} {x : Word}

theorem attr_eq_of_hasAttr {a b : Word} {t : Translation} (ha : a ∈ mapAttrs) (hb : b ∈ mapAttrs)
    (hat : HasAttr cfg a t) (hbt : HasAttr cfg b t) : a = b := by
  refine attr_eq_of_desc cfg ha hb ?_
  rcases hat with ⟨ha1, ha2⟩ | ⟨ha1, ha2⟩
  · rcases hbt with ⟨hb1, -⟩ | ⟨-, hb2⟩
    · exact Or.inl (ha1.symm.trans hb1)
    · rw [ha2] at hb2
      cases hb2
  · rcases hbt with ⟨-, hb2⟩ | ⟨hb1, hb2⟩
    · rw [ha2] at hb2
      cases hb2
    · rw [ha2] at hb2
      exact Or.inr ⟨ha1.symm.trans hb1, Option.some.inj hb2⟩

theorem hasAttr_translation (cfg : XlatCfg) (r : MmapRegion) (x : Word) :
    HasAttr cfg r.attr (r.translation cfg x) := by
  unfold MmapRegion.translation
  split
  · exact Or.inl ⟨rfl, rfl⟩
  · exact Or.inr ⟨rfl, rfl⟩

theorem toNat_pageOf (q x : Word) : ((q &&& ~~~sectionMask) ||| (x &&& sectionMask)).toNat =
    q.toNat / 2 ^ 20 * 2 ^ 20 + x.toNat % 2 ^ 20 := by
  rw [@toNat_or_of_aligned 32 _ _ 20 (by rw [toNat_not_section]; omega)
    (by rw [toNat_section]; omega), toNat_not_section, toNat_section]

/-- A page keeps its offset if the area starts at a section boundary. -/
theorem pageOf_eq_add_iff (q x : Word) :
    (q &&& ~~~sectionMask) ||| (x &&& sectionMask) = q + (x &&& sectionMask) ↔ q.toNat % 2 ^ 20 = 0 := by
  have hq := q.isLt
  rw [← BitVec.toNat_inj, toNat_pageOf, BitVec.toNat_add, toNat_section]
  omega

theorem pageOf_eq_iff {pa va x : Word} (h : (x - va).toNat < 2 ^ 20 - va.toNat % 2 ^ 20) :
    (pa &&& ~~~sectionMask) ||| (x &&& sectionMask) = pa + (x - va) ↔
      pa.toNat % 2 ^ 20 = va.toNat % 2 ^ 20 := by
  have hpa := pa.isLt
  have hsame : x.toNat % 2 ^ 20 = va.toNat % 2 ^ 20 + (x - va).toNat := by
    have hx := x.isLt
    have hva := va.isLt
    rw [BitVec.toNat_sub] at h ⊢
    omega
  rw [← BitVec.toNat_inj, toNat_pageOf, BitVec.toNat_add, hsame]
  generalize (x - va).toNat = off at h ⊢
  generalize va.toNat = v at h ⊢
  generalize pa.toNat = p at hpa ⊢
  omega

theorem sub_section_mod (pa va x : Word) :
    (pa + ((x &&& ~~~sectionMask) - va)).toNat % 2 ^ 20 = 0 ↔
      pa.toNat % 2 ^ 20 = va.toNat % 2 ^ 20 := by
  have hva := va.isLt
  rw [BitVec.toNat_add, BitVec.toNat_sub, toNat_not_section]
  omega

theorem add_section_split (pa va x : Word) :
    pa + (x - va) = pa + ((x &&& ~~~sectionMask) - va) + (x &&& sectionMask) := by
  have hx : x = (x &&& ~~~sectionMask) + (x &&& sectionMask) := by
    apply BitVec.eq_of_toNat_eq
    rw [BitVec.toNat_add, toNat_not_section, toNat_section]
    omega
  generalize x &&& ~~~sectionMask = a at hx ⊢
  generalize x &&& sectionMask = b at hx ⊢
  rw [hx]
  bv_omega
theorem pagePa_eq_iff (r : MmapRegion) (x : Word) :
    r.pagePa x = r.pa + (x - r.va) ↔ r.SameOffset := by
  unfold MmapRegion.pagePa MmapRegion.SameOffset
  by_cases hfirst : x - r.va < pgdirSize - (r.va &&& sectionMask)
  · have hstart : r.pieceStart x = r.va := if_pos hfirst
    rw [BitVec.lt_def, toNat_sectionRest] at hfirst
    rw [hstart, BitVec.sub_self, BitVec.add_zero]
    exact pageOf_eq_iff hfirst
  · have hstart : r.pieceStart x = x &&& ~~~sectionMask := if_neg hfirst
    rw [hstart, add_section_split r.pa r.va x, pageOf_eq_add_iff]
    exact sub_section_mod r.pa r.va x

/-- The memory that an entry leads to is its own exactly if its addresses have the same offset. -/
theorem translation_pa_iff (r : MmapRegion) (x : Word) :
    (r.translation cfg x).pa = r.pa + (x - r.va) ↔ r.SameOffset := by
  unfold MmapRegion.translation
  split
  · rename_i hsections
    obtain ⟨hva, hpa, -⟩ := MmapRegion.inSections_iff.mp hsections
    exact ⟨fun _ => hpa.trans hva.symm, fun _ => rfl⟩
  · exact pagePa_eq_iff r x

theorem size_ne_zero_of_hasVa (h : r.HasVa x) : r.size ≠ 0 := by
  intro hzero
  unfold MmapRegion.HasVa at h
  rw [hzero] at h
  exact absurd h BitVec.not_lt_zero

theorem sub_eq_of_add_sub {pa va pa' va' x : Word} (h : pa + (x - va) = pa' + (x - va')) :
    pa - va = pa' - va' := by bv_omega

theorem add_sub_eq_of_sub {pa va pa' va' x : Word} (h : pa - va = pa' - va') :
    pa + (x - va) = pa' + (x - va') := by bv_omega

theorem MmapRegion.SameOffset.congr (h : q.SameOffset) (heq : q.pa - q.va = r.pa - r.va) : r.SameOffset := by
  have hnat := congrArg BitVec.toNat heq
  have hq := q.va.isLt
  have hr := r.va.isLt
  rw [BitVec.toNat_sub, BitVec.toNat_sub] at hnat
  unfold MmapRegion.SameOffset at h ⊢
  omega

end Agreement

/-- The tables that `core_init_mmu_tables` builds from a map of `init_mem_map` implement it exactly if
the entries have the same offset in both kinds of sections and none is hidden behind an empty one. -/
theorem tablesRight_iff {mcfg : MmuCfg} {cfg : XlatCfg} {mems special : List PhysMem}
    {map : List MmapRegion} {l2 : Nat → Nat → Word} {st : XlatTables}
    (hmap : initMemMap mcfg mems special = .ok map) (hrun : coreInitMmuTables cfg map l2 = .ok st) :
    TablesRight cfg map st ↔ MapFits map := by
  obtain ⟨table, hplace⟩ := placeMemMap_of_initMemMap hmap
  have hattr : ∀ r ∈ map, coreMmuTypeToAttr r.type = .ok r.attr :=
    fun r hr => (mem_of_placeMemMap hplace hr).2.1
  have hmapAttr : ∀ r ∈ map, r.isDynamicVaspace = false → r.attr ∈ mapAttrs :=
    fun r hr hdyn => mem_mapAttrs_of_mapped (hattr r hr) hdyn
  have hwalk := walk_iff hattr hrun
  constructor
  · intro hright r hr hdyn hsize
    -- an address leads to the memory of every entry that has it, in particular of the mapped one
    have halike : ∀ x, r.HasVa x → ∃ q ∈ mappedEntries map, q.HasVa x ∧ q.SameOffset ∧
        q.pa - q.va = r.pa - r.va ∧ q.attr = r.attr := by
      intro x hx
      obtain ⟨t, ht, hpa, hhas⟩ := hright.regions r hr hdyn x hx
      obtain ⟨q, hq, hxq, rfl⟩ := (hwalk x t).mp ht
      obtain ⟨hmem, hqdyn⟩ := mem_of_mappedEntries hq
      obtain ⟨t, ht', hpa', -⟩ := hright.regions q hmem hqdyn x hxq
      rw [ht] at ht'
      obtain rfl := Option.some.inj ht'
      refine ⟨q, hq, hxq, (translation_pa_iff q x).mp hpa', ?_, ?_⟩
      · exact sub_eq_of_add_sub (hpa'.symm.trans hpa)
      · exact attr_eq_of_hasAttr (hmapAttr q hmem hqdyn) (hmapAttr r hr hdyn)
          (hasAttr_translation cfg q x) hhas
    have hfirst : r.HasVa r.va := by
      unfold MmapRegion.HasVa
      rw [BitVec.sub_self]
      rw [BitVec.lt_def]
      exact Nat.pos_of_ne_zero fun hzero => hsize (BitVec.eq_of_toNat_eq hzero)
    obtain ⟨q, -, -, hoffset, hsame, -⟩ := halike r.va hfirst
    refine ⟨hoffset.congr hsame, fun x hx => ?_⟩
    obtain ⟨q, hq, hxq, -, hrest⟩ := halike x hx
    exact ⟨q, hq, hxq, hrest⟩
  · intro hfits
    constructor
    · intro r hr hdyn x hx
      obtain ⟨-, hall⟩ := hfits r hr hdyn (size_ne_zero_of_hasVa hx)
      obtain ⟨q, hq, hxq, hsame, hqattr⟩ := hall x hx
      obtain ⟨hmem, hqdyn⟩ := mem_of_mappedEntries hq
      have hoffset := (hfits q hmem hqdyn (size_ne_zero_of_hasVa hxq)).1
      refine ⟨q.translation cfg x, (hwalk x _).mpr ⟨q, hq, hxq, rfl⟩, ?_, ?_⟩
      · rw [(translation_pa_iff q x).mpr hoffset]
        exact add_sub_eq_of_sub hsame
      · rw [← hqattr]
        exact hasAttr_translation cfg q x
    · intro x hno
      cases ht : st.walk cfg x with
      | none => rfl
      | some t =>
        obtain ⟨q, hq, hxq, -⟩ := (hwalk x t).mp ht
        obtain ⟨hmem, hqdyn⟩ := mem_of_mappedEntries hq
        exact absurd hxq (hno q hmem hqdyn)

/-- The second level tables are in the RAM of the TEE. -/
def bootTables : XlatCfg where
  smp := true
  pxn := false
  l2Ttb := 0x4E008000
  aligned := by decide
  fits := by decide

theorem exists_ok {α ε : Type} {x : Except ε α} (h : x.toOption.isSome = true) : ∃ a, x = .ok a := by
  cases x with
  | error e => cases h
  | ok a => exact ⟨a, rfl⟩

/-- Code and data of the TEE share a second level table. -/
theorem tablesRight_iff_shared :
    ∃ map st, initMemMap insertionCfg [⟨.teeRamRx, 0x4E000000, 0x8000⟩, ⟨.teeRamRw, 0x4E008000, 0x8000⟩,
        ⟨.ioSec, 0x02000000, 0x4000⟩] [] = .ok map ∧
      coreInitMmuTables bootTables map (fun _ _ => 0) = .ok st ∧
      (TablesRight bootTables map st ↔ MapFits map) := by
  obtain ⟨map, hmap⟩ := @exists_ok _ _ (initMemMap insertionCfg [⟨.teeRamRx, 0x4E000000, 0x8000⟩,
    ⟨.teeRamRw, 0x4E008000, 0x8000⟩, ⟨.ioSec, 0x02000000, 0x4000⟩] []) (by decide +kernel)
  have hruns : ∀ map ∈ (initMemMap insertionCfg [⟨.teeRamRx, 0x4E000000, 0x8000⟩,
      ⟨.teeRamRw, 0x4E008000, 0x8000⟩, ⟨.ioSec, 0x02000000, 0x4000⟩] []).toOption,
      (coreInitMmuTables bootTables map fun _ _ => 0).toOption.isSome = true := by decide +kernel
  obtain ⟨st, hst⟩ := exists_ok (hruns map (by rw [hmap]; rfl))
  exact ⟨map, st, hmap, hst, tablesRight_iff hmap hst⟩

/-- A page of non-secure RAM at 0x10001000 is mapped at 0x4F500000, which leads to 0x10000000. -/
theorem page_misplaced :
    ∃ map st, initMemMap insertionCfg [⟨.teeRamRw, 0x4E000000, 0x100000⟩,
        ⟨.ramNsec, 0x10001000, 0x1000⟩] [] = .ok map ∧
      coreInitMmuTables bootTables map (fun _ _ => 0) = .ok st ∧ ¬ TablesRight bootTables map st := by
  have hmap : ∀ map ∈ (initMemMap insertionCfg [⟨.teeRamRw, 0x4E000000, 0x100000⟩,
      ⟨.ramNsec, 0x10001000, 0x1000⟩] []).toOption,
      { type := .ramNsec, regionSize := 0x1000, pa := 0x10001000, va := 0x4F500000, size := 0x1000,
        attr := 0x1431 } ∈ map := by decide +kernel
  have hwalk : ∀ map ∈ (initMemMap insertionCfg [⟨.teeRamRw, 0x4E000000, 0x100000⟩,
      ⟨.ramNsec, 0x10001000, 0x1000⟩] []).toOption,
      (coreInitMmuTables bootTables map fun _ _ => 0).toOption.isSome = true ∧
      ∀ st ∈ (coreInitMmuTables bootTables map fun _ _ => 0).toOption,
        st.walk bootTables 0x4F500000 = some ⟨0x10000000, 9, some 0x417⟩ := by decide +kernel
  obtain ⟨map, hinit⟩ := @exists_ok _ _ (initMemMap insertionCfg [⟨.teeRamRw, 0x4E000000, 0x100000⟩,
    ⟨.ramNsec, 0x10001000, 0x1000⟩] []) (by decide +kernel)
  have hmem : map ∈ (initMemMap insertionCfg [⟨.teeRamRw, 0x4E000000, 0x100000⟩,
      ⟨.ramNsec, 0x10001000, 0x1000⟩] []).toOption := by
    rw [hinit]
    rfl
  obtain ⟨st, hst⟩ := exists_ok (hwalk map hmem).1
  refine ⟨map, st, hinit, hst, fun hright => ?_⟩
  obtain ⟨t, ht, hpa, -⟩ := hright.regions _ (hmap map hmem) rfl 0x4F500000 (by decide)
  rw [(hwalk map hmem).2 st (by rw [hst]; rfl)] at ht
  obtain rfl := Option.some.inj ht
  exact absurd hpa (by decide)

end SeCloak
