import SeCloak.Mm.Entries

/-!
# What a new mapping writes (`core_mmu.c:834-855`)

`set_region` enters a mapping into the table that `core_mmu_find_table` returned, and the hardware
follows the descriptor of the first level. Where it reads what was written, an address leads to the
physical address of the mapping (`armVa2pa_setRegion`). Otherwise it leads where it did before.
-/

namespace SeCloak
open Misc

/-! ## Tables of a lookup -/

section Find

variable {debug : Bool} {cfg : XlatCfg} {st : MmuState} {info : CoreMmuTableInfo} {va : Word}

/-- The table of an address is the first level table, or the one that its descriptor leads to. -/
theorem coreMmuFindTable_cases
    (h : coreMmuFindTable debug cfg st va 0xFFFFFFFF = .ok (some info)) :
    info = coreMmuSetInfoTable 1 0 .main ∨
      (st.tables.l1 (va >>> 20).toNat &&& 3 = 1 ∧
        ∃ l2tbl, info = coreMmuSetInfoTable 2 ((va >>> 20) <<< 20) (.second l2tbl)) := by
  unfold coreMmuFindTable at h
  dsimp only at h
  split at h
  · cases h
    exact Or.inl rfl
  · rename_i hdesc
    rw [not_or, ne_eq, not_not] at hdesc
    obtain ⟨l2tbl, -, h⟩ := except_bind_ok h
    split at h
    · cases h
    · cases h
      exact Or.inr ⟨hdesc.2, l2tbl, rfl⟩

theorem shift_of_findTable (h : coreMmuFindTable debug cfg st va 0xFFFFFFFF = .ok (some info)) :
    info.shift = 20 ∨ info.shift = 12 := by
  obtain rfl | ⟨-, l2tbl, rfl⟩ := coreMmuFindTable_cases h
  · exact Or.inl rfl
  · exact Or.inr rfl

end Find

/-! ## Entries of a lookup -/

section Lookup

variable {cfg : XlatCfg} {tables tables' : XlatTables} {x : Word}

/-- A lookup depends on the entry of the first level and on the one of the table that it leads to. -/
theorem walk_congr_entries
    (h1 : tableEntry cfg tables' .main (x >>> 20).toNat = tableEntry cfg tables .main (x >>> 20).toNat)
    (h2 : ∀ k, Owns cfg (tables.l1 (x >>> 20).toNat) k →
      tableEntry cfg tables' (.second (tables.l1 (x >>> 20).toNat &&& ~~~tableMask))
          ((x >>> 12).toNat % 256) =
        tableEntry cfg tables (.second (tables.l1 (x >>> 20).toNat &&& ~~~tableMask))
          ((x >>> 12).toNat % 256)) : tables'.walk cfg x = tables.walk cfg x := by
  refine walk_congr (Option.some.inj h1) fun k hk => ?_
  have hentry := h2 k hk
  rw [tableEntry_second hk.2, tableEntry_second hk.2] at hentry
  exact Option.some.inj hentry

end Lookup

/-! ## The loop -/

/-- The descriptor of the entry `i` in a loop that starts with `pa` at `idx`. -/
def CoreMmuTableInfo.blockDesc (cfg : XlatCfg) (info : CoreMmuTableInfo) (attr pa : Word)
    (idx i : Nat) : Word :=
  mattrToDesc cfg info.level attr ||| (pa + BitVec.ofNat 32 ((i - idx) * 2 ^ info.shift))

/-- What the loop of `set_region` leaves. -/
structure EntriesSet (cfg : XlatCfg) (info : CoreMmuTableInfo) (attr : Word) (n idx : Nat) (pa : Word)
    (tables tables' : XlatTables) : Prop where
  lt : ∀ i, idx ≤ i → i < idx + n → i < info.numEntries
  set : ∀ i, idx ≤ i → i < idx + n →
    tableEntry cfg tables' info.table i = some (info.blockDesc cfg attr pa idx i)
  same : ∀ table i, table ≠ info.table ∨ ¬ (idx ≤ i ∧ i < idx + n) →
    tableEntry cfg tables' table i = tableEntry cfg tables table i

section Loop

variable {debug : Bool} {cfg : XlatCfg} {info : CoreMmuTableInfo} {attr pa : Word} {n idx : Nat}
  {tables tables' : XlatTables}

theorem blockDesc_self : info.blockDesc cfg attr pa idx idx = mattrToDesc cfg info.level attr ||| pa := by
  unfold CoreMmuTableInfo.blockDesc
  rw [Nat.sub_self, Nat.zero_mul, BitVec.add_zero]

theorem blockDesc_succ (hshift : info.shift = 20 ∨ info.shift = 12) {i : Nat} (h : idx < i) :
    info.blockDesc cfg attr (pa + 1 <<< info.shift) (idx + 1) i =
      info.blockDesc cfg attr pa idx i := by
  unfold CoreMmuTableInfo.blockDesc
  have hstep : ((1 <<< info.shift : Nat) : Word) + BitVec.ofNat 32 ((i - (idx + 1)) * 2 ^ info.shift) =
      BitVec.ofNat 32 ((i - idx) * 2 ^ info.shift) := by
    have hone : ((1 <<< info.shift : Nat) : Word).toNat = 2 ^ info.shift := by
      rcases hshift with h | h <;> rw [h] <;> rfl
    have hsub : i - idx = i - (idx + 1) + 1 := by omega
    apply BitVec.eq_of_toNat_eq
    rw [BitVec.toNat_add, BitVec.toNat_ofNat, BitVec.toNat_ofNat, hone, hsub, Nat.succ_mul]
    omega
  rw [BitVec.add_assoc, hstep]

theorem setEntries_ok (hshift : info.shift = 20 ∨ info.shift = 12)
    (h : setEntries debug cfg info attr n idx pa tables = .ok tables') :
    EntriesSet cfg info attr n idx pa tables tables' := by
  induction n generalizing idx pa tables with
  | zero =>
    obtain rfl := Except.ok.inj h
    exact ⟨fun i h₁ h₂ => by omega, fun i h₁ h₂ => by omega, fun _ _ _ => rfl⟩
  | succ n ih =>
    rw [setEntries] at h
    split at h
    · rename_i hidx
      obtain ⟨tables₁, hset, h⟩ := except_bind_ok h
      have hrest := ih h
      refine ⟨fun i h₁ h₂ => ?_, fun i h₁ h₂ => ?_, fun table i hne => ?_⟩
      · rcases Nat.eq_or_lt_of_le h₁ with rfl | hlt
        · exact hidx
        · exact hrest.lt i hlt (by omega)
      · rcases Nat.eq_or_lt_of_le h₁ with rfl | hlt
        · rw [hrest.same _ idx (Or.inr (by omega)), tableEntry_set_self hset, blockDesc_self]
        · rw [hrest.set i hlt (by omega), blockDesc_succ hshift hlt]
      · rw [hrest.same table i (hne.imp_right (by omega)),
          tableEntry_set_other hset (hne.imp_right (by omega))]
    · cases h

end Loop

/-! ## Regions -/

/-- With a region of `size` bytes at `va` the hardware reads for `x` the descriptor that `set_region` writes
for the offset `off`. A second level table is read for the addresses of each section that has it. -/
structure ReadsNew (cfg : XlatCfg) (tables : XlatTables) (info : CoreMmuTableInfo)
    (va size x off : Word) : Prop where
  lt : off < size
  writes : info.va2idx va < info.va2idx (va + size)
  main : info.table = .main → x = va + off
  second : ∀ l2tbl, info.table = .second l2tbl → ∃ k, cfg.tableAt l2tbl = some k ∧
    Owns cfg (tables.l1 (x >>> 20).toNat) k ∧ x.toNat % 2 ^ 20 = (va + off).toNat % 2 ^ 20

section Region

variable {debug : Bool} {cfg : XlatCfg} {st : MmuState} {info : CoreMmuTableInfo} {r : MmapRegion}
  {tables' : XlatTables} {va size pa attr x off : Word} {s : Nat}

/-- The address of the block that has the offset `off`. -/
def blockPa (pa off : Word) (s : Nat) : Word := pa + BitVec.ofNat 32 (off.toNat / 2 ^ s * 2 ^ s)

theorem blockPa_aligned (hs : s = 20 ∨ s = 12) (hpa : pa.toNat % 2 ^ s = 0) :
    (blockPa pa off s).toNat % 2 ^ s = 0 := by
  unfold blockPa
  rw [BitVec.toNat_add, BitVec.toNat_ofNat]
  rcases hs with rfl | rfl <;> omega

theorem blockPa_or (hs : s = 20 ∨ s = 12) (hpa : pa.toNat % 2 ^ s = 0) {low : Word}
    (hlow : low.toNat = off.toNat % 2 ^ s) : blockPa pa off s ||| low = pa + off := by
  apply BitVec.eq_of_toNat_eq
  have hlt : low.toNat < 2 ^ s := by
    rw [hlow]
    exact Nat.mod_lt _ (Nat.two_pow_pos s)
  rw [toNat_or_of_aligned (blockPa_aligned hs hpa) hlt, hlow]
  unfold blockPa
  rw [BitVec.toNat_add, BitVec.toNat_add, BitVec.toNat_ofNat]
  rcases hs with rfl | rfl <;> omega

/-- With asserts the range and the physical address are aligned to blocks. -/
theorem setRegion_ok (hshift : info.shift = 20 ∨ info.shift = 12)
    (h : setRegion true cfg info r st.tables = .ok tables') :
    (r.va.toNat % 2 ^ info.shift = 0 ∧ r.size.toNat % 2 ^ info.shift = 0 ∧
      r.pa.toNat % 2 ^ info.shift = 0) ∧
    EntriesSet cfg info r.attr (info.va2idx (r.va + r.size) - info.va2idx r.va) (info.va2idx r.va) r.pa
      st.tables tables' := by
  have hblock : ∀ v, info.getBlockOffset v = 0 → v.toNat % 2 ^ info.shift = 0 := by
    intro v hv
    unfold CoreMmuTableInfo.getBlockOffset at hv
    rcases hshift with h | h
    · rw [h] at hv ⊢
      exact (and_section_eq_zero v).mp hv
    · rw [h] at hv ⊢
      exact (and_page_eq_zero v).mp hv
  unfold setRegion at h
  split at h
  · cases h
  · rename_i hassert
    simp only [true_and, not_not] at hassert
    obtain ⟨hva, hsize, hpa⟩ := hassert
    exact ⟨⟨hblock _ hva, hblock _ hsize, hblock _ hpa⟩, setEntries_ok hshift h⟩

theorem va2idx_section (v : Word) : (coreMmuSetInfoTable 1 0 .main).va2idx v = v.toNat / 2 ^ 20 := by
  change ((v - 0#32) >>> 20).toNat = _
  rw [BitVec.sub_zero, toNat_shift20]

/-- The index of an address in the second level table of `va`, from the offset to `va`. -/
theorem va2idx_page {l2tbl : Word} (v : Word) :
    (coreMmuSetInfoTable 2 ((va >>> 20) <<< 20) (.second l2tbl)).va2idx (va + v) =
      (va.toNat % 2 ^ 20 + v.toNat) % 2 ^ 32 / 2 ^ 12 := by
  have hv := va.isLt
  have hbase : ((va >>> 20) <<< 20).toNat = va.toNat / 2 ^ 20 * 2 ^ 20 := by
    rw [BitVec.toNat_shiftLeft, toNat_shift20, Nat.shiftLeft_eq]
    omega
  have hle : (va >>> 20) <<< 20 ≤ va := by
    rw [BitVec.le_def, hbase]
    exact Nat.div_mul_le_self _ _
  have hlow : (va - (va >>> 20) <<< 20).toNat = va.toNat % 2 ^ 20 := by
    rw [BitVec.toNat_sub_of_le hle, hbase]
    omega
  have hsub : va + v - (va >>> 20) <<< 20 = va - (va >>> 20) <<< 20 + v := by
    rw [BitVec.sub_eq_add_neg, BitVec.sub_eq_add_neg, BitVec.add_assoc, BitVec.add_comm v,
      BitVec.add_assoc]
  change ((va + v - (va >>> 20) <<< 20) >>> 12).toNat = _
  rw [toNat_shift12, hsub, BitVec.toNat_add, hlow]

theorem va2idx_page_self {l2tbl : Word} :
    (coreMmuSetInfoTable 2 ((va >>> 20) <<< 20) (.second l2tbl)).va2idx va =
      va.toNat % 2 ^ 20 / 2 ^ 12 := by
  have hzero := @va2idx_page va l2tbl 0#32
  rw [BitVec.add_zero] at hzero
  rw [hzero, show (0#32).toNat = 0 from rfl]
  omega

/-- Sections that are written end below the top of the address space. -/
theorem section_range
    (hw : (coreMmuSetInfoTable 1 0 .main).va2idx va < (coreMmuSetInfoTable 1 0 .main).va2idx (va + size)) :
    va.toNat + size.toNat < 2 ^ 32 := by
  rw [va2idx_section, va2idx_section, BitVec.toNat_add] at hw
  have hs := size.isLt
  omega

/-- Pages that are written are in one section. -/
theorem page_range {l2tbl : Word} (hsize : size.toNat % 2 ^ 12 = 0) (hva : va.toNat % 2 ^ 12 = 0)
    (hw : (coreMmuSetInfoTable 2 ((va >>> 20) <<< 20) (.second l2tbl)).va2idx va <
      (coreMmuSetInfoTable 2 ((va >>> 20) <<< 20) (.second l2tbl)).va2idx (va + size))
    (hset : EntriesSet cfg (coreMmuSetInfoTable 2 ((va >>> 20) <<< 20) (.second l2tbl)) attr
      ((coreMmuSetInfoTable 2 ((va >>> 20) <<< 20) (.second l2tbl)).va2idx (va + size) -
        (coreMmuSetInfoTable 2 ((va >>> 20) <<< 20) (.second l2tbl)).va2idx va)
      ((coreMmuSetInfoTable 2 ((va >>> 20) <<< 20) (.second l2tbl)).va2idx va) pa st.tables tables') :
    va.toNat % 2 ^ 20 + size.toNat ≤ 2 ^ 20 := by
  have hlast : (coreMmuSetInfoTable 2 ((va >>> 20) <<< 20) (.second l2tbl)).va2idx (va + size) - 1 < 256 :=
    hset.lt _ (by omega) (by omega)
  rw [va2idx_page, va2idx_page_self] at hw
  rw [va2idx_page] at hlast
  have hs := size.isLt
  omega

/-- Where an offset of a range is in a first level table. -/
theorem section_of_offset (hva : va.toNat % 2 ^ 20 = 0) (hsize : size.toNat % 2 ^ 20 = 0)
    (hrange : va.toNat + size.toNat < 2 ^ 32) (hoff : off < size) :
    let info := coreMmuSetInfoTable 1 0 .main
    let i := ((va + off) >>> 20).toNat
    (info.va2idx va ≤ i ∧ i < info.va2idx va + (info.va2idx (va + size) - info.va2idx va)) ∧
      i - info.va2idx va = off.toNat / 2 ^ 20 ∧
      ((va + off) &&& sectionMask).toNat = off.toNat % 2 ^ 20 := by
  have hlt : off.toNat < size.toNat := hoff
  have hend : (va + size).toNat = va.toNat + size.toNat := BitVec.toNat_add_of_lt hrange
  have hsum : (va + off).toNat = va.toNat + off.toNat := BitVec.toNat_add_of_lt (by omega)
  dsimp only
  rw [va2idx_section, va2idx_section, toNat_shift20, toNat_section, hsum, hend]
  refine ⟨⟨?_, ?_⟩, ?_, ?_⟩ <;> omega

/-- The offset of an address whose section is written. -/
theorem offset_of_section (hva : va.toNat % 2 ^ 20 = 0) (hsize : size.toNat % 2 ^ 20 = 0)
    (hrange : va.toNat + size.toNat < 2 ^ 32)
    (hlo : (coreMmuSetInfoTable 1 0 .main).va2idx va ≤ (x >>> 20).toNat)
    (hhi : (x >>> 20).toNat < (coreMmuSetInfoTable 1 0 .main).va2idx (va + size)) :
    x - va < size ∧ x = va + (x - va) := by
  have hend : (va + size).toNat = va.toNat + size.toNat := BitVec.toNat_add_of_lt hrange
  rw [va2idx_section, toNat_shift20] at hlo hhi
  rw [hend] at hhi
  have hle : va ≤ x := by
    rw [BitVec.le_def]
    omega
  refine ⟨?_, by bv_omega⟩
  rw [BitVec.lt_def, BitVec.toNat_sub_of_le hle]
  omega

/-- Where an offset of a range is in a second level table. -/
theorem page_of_offset {l2tbl : Word} (hva : va.toNat % 2 ^ 12 = 0) (hsize : size.toNat % 2 ^ 12 = 0)
    (hrange : va.toNat % 2 ^ 20 + size.toNat ≤ 2 ^ 20) (hoff : off < size)
    (hx : x.toNat % 2 ^ 20 = (va + off).toNat % 2 ^ 20) :
    let info := coreMmuSetInfoTable 2 ((va >>> 20) <<< 20) (.second l2tbl)
    let i := (x >>> 12).toNat % 256
    (info.va2idx va ≤ i ∧ i < info.va2idx va + (info.va2idx (va + size) - info.va2idx va)) ∧
      i - info.va2idx va = off.toNat / 2 ^ 12 ∧
      (x &&& smallPageMask).toNat = off.toNat % 2 ^ 12 := by
  have hlt : off.toNat < size.toNat := hoff
  have hv := va.isLt
  rw [BitVec.toNat_add_of_lt (by omega)] at hx
  dsimp only
  rw [va2idx_page, va2idx_page_self, toNat_shift12, toNat_page,
    Nat.mod_eq_of_lt (show va.toNat % 2 ^ 20 + size.toNat < 2 ^ 32 by omega)]
  refine ⟨⟨?_, ?_⟩, ?_, ?_⟩ <;> omega

/-- The offset of an address whose page is written. -/
theorem offset_of_page {l2tbl : Word} (hva : va.toNat % 2 ^ 12 = 0) (hsize : size.toNat % 2 ^ 12 = 0)
    (hrange : va.toNat % 2 ^ 20 + size.toNat ≤ 2 ^ 20)
    (hlo : (coreMmuSetInfoTable 2 ((va >>> 20) <<< 20) (.second l2tbl)).va2idx va ≤
      (x >>> 12).toNat % 256)
    (hhi : (x >>> 12).toNat % 256 <
      (coreMmuSetInfoTable 2 ((va >>> 20) <<< 20) (.second l2tbl)).va2idx (va + size)) :
    ∃ off, off < size ∧ x.toNat % 2 ^ 20 = (va + off).toNat % 2 ^ 20 := by
  have hs := size.isLt
  rw [va2idx_page_self, toNat_shift12] at hlo
  rw [va2idx_page, toNat_shift12,
    Nat.mod_eq_of_lt (show va.toNat % 2 ^ 20 + size.toNat < 2 ^ 32 by omega)] at hhi
  have hoff : (BitVec.ofNat 32 (x.toNat % 2 ^ 20 - va.toNat % 2 ^ 20)).toNat =
      x.toNat % 2 ^ 20 - va.toNat % 2 ^ 20 := by
    rw [BitVec.toNat_ofNat]
    omega
  refine ⟨BitVec.ofNat 32 (x.toNat % 2 ^ 20 - va.toNat % 2 ^ 20), ?_, ?_⟩
  · rw [BitVec.lt_def, hoff]
    omega
  · rw [BitVec.toNat_add, hoff]
    omega

/-- Where a section is read that was written, the lookup ends at its descriptor. -/
theorem entry_of_section (hset : EntriesSet cfg (coreMmuSetInfoTable 1 0 .main) r.attr
      ((coreMmuSetInfoTable 1 0 .main).va2idx (r.va + r.size) - (coreMmuSetInfoTable 1 0 .main).va2idx r.va)
      ((coreMmuSetInfoTable 1 0 .main).va2idx r.va) r.pa st.tables tables')
    (hva : r.va.toNat % 2 ^ 20 = 0) (hsize : r.size.toNat % 2 ^ 20 = 0)
    (hread : ReadsNew cfg st.tables (coreMmuSetInfoTable 1 0 .main) r.va r.size x off) :
    tables'.l1 (x >>> 20).toNat = blockPa r.pa off 20 ||| mattrToDesc1 cfg r.attr ∧
      (x &&& sectionMask).toNat = off.toNat % 2 ^ 20 := by
  obtain rfl := hread.main rfl
  obtain ⟨⟨hlo, hhi⟩, hidx, hlow⟩ :=
    section_of_offset hva hsize (section_range hread.writes) hread.lt
  have hl1 := Option.some.inj (hset.set _ hlo hhi)
  rw [CoreMmuTableInfo.blockDesc, hidx, BitVec.or_comm] at hl1
  exact ⟨hl1, hlow⟩

theorem entry_of_page {l2tbl : Word}
    (hset : EntriesSet cfg (coreMmuSetInfoTable 2 ((r.va >>> 20) <<< 20) (.second l2tbl)) r.attr
      ((coreMmuSetInfoTable 2 ((r.va >>> 20) <<< 20) (.second l2tbl)).va2idx (r.va + r.size) -
        (coreMmuSetInfoTable 2 ((r.va >>> 20) <<< 20) (.second l2tbl)).va2idx r.va)
      ((coreMmuSetInfoTable 2 ((r.va >>> 20) <<< 20) (.second l2tbl)).va2idx r.va) r.pa st.tables tables')
    (hva : r.va.toNat % 2 ^ 12 = 0) (hsize : r.size.toNat % 2 ^ 12 = 0)
    (hread : ReadsNew cfg st.tables (coreMmuSetInfoTable 2 ((r.va >>> 20) <<< 20) (.second l2tbl))
      r.va r.size x off) :
    ∃ k, Owns cfg (tables'.l1 (x >>> 20).toNat) k ∧
      tables'.l2 k ((x >>> 12).toNat % 256) = blockPa r.pa off 12 ||| mattrToDesc2 cfg r.attr ∧
      (x &&& smallPageMask).toNat = off.toNat % 2 ^ 12 := by
  obtain ⟨k, hk, howns, hx⟩ := hread.second l2tbl rfl
  have hrange := page_range hsize hva hread.writes hset
  obtain ⟨⟨hlo, hhi⟩, hidx, hlow⟩ :=
    @page_of_offset r.va r.size x off l2tbl hva hsize hrange hread.lt hx
  have hl1 : tables'.l1 (x >>> 20).toNat = st.tables.l1 (x >>> 20).toNat :=
    Option.some.inj (hset.same .main _ (Or.inl TablePtr.noConfusion))
  have hpage := hset.set _ hlo hhi
  rw [CoreMmuTableInfo.blockDesc, hidx, BitVec.or_comm] at hpage
  refine ⟨k, hl1 ▸ howns, ?_, hlow⟩
  exact Option.some.inj ((tableEntry_second hk).symm.trans hpage)

/-- Where a region of mapped memory is read, it leads to its physical addresses. -/
theorem armVa2pa_setRegion (hinfo : coreMmuFindTable debug cfg st r.va 0xFFFFFFFF = .ok (some info))
    (hset : setRegion true cfg info r st.tables = .ok tables')
    (hread : ReadsNew cfg st.tables info r.va r.size x off) (hattr : r.attr ∈ mapAttrs) :
    armVa2paHelper cfg tables' x = some (r.pa + off) := by
  have hdesc := descOk_of_mem cfg hattr
  obtain ⟨⟨hva, hsize, hpa⟩, hentries⟩ := setRegion_ok (shift_of_findTable hinfo) hset
  obtain rfl | ⟨-, l2tbl, rfl⟩ := coreMmuFindTable_cases hinfo
  · obtain ⟨hl1, hlow⟩ := entry_of_section hentries hva hsize hread
    have haligned := @blockPa_aligned r.pa off 20 (Or.inl rfl) hpa
    have htype : getDescType1 (tables'.l1 (x >>> 20).toNat) = .section := by
      rw [hl1]
      exact (getDescType1_or haligned).trans hdesc.section_type
    rw [armVa2paHelper, walk_section htype, hl1, or_not_section haligned hdesc.section_lt]
    exact congrArg some (blockPa_or (Or.inl rfl) hpa hlow)
  · obtain ⟨k, howns, hl2, hlow⟩ := entry_of_page hentries hva hsize hread
    have haligned := @blockPa_aligned r.pa off 12 (Or.inr rfl) hpa
    have htype : getDescType2 (blockPa r.pa off 12 ||| mattrToDesc2 cfg r.attr) = .smallPage :=
      (getDescType2_or haligned).trans hdesc.page_type
    rw [armVa2paHelper, walk_table howns, hl2, if_pos htype, or_not_page haligned hdesc.page_lt]
    exact congrArg some (blockPa_or (Or.inr rfl) hpa hlow)

theorem mattrToDesc1_zero : mattrToDesc1 cfg 0 = 0 := by simp [mattrToDesc1]

theorem mattrToDesc2_zero : mattrToDesc2 cfg 0 = 0 := by simp [mattrToDesc2]

/-- Where a region without attributes is read, it leads nowhere. -/
theorem armVa2pa_setRegion_hole
    (hinfo : coreMmuFindTable debug cfg st r.va 0xFFFFFFFF = .ok (some info))
    (hset : setRegion true cfg info r st.tables = .ok tables')
    (hread : ReadsNew cfg st.tables info r.va r.size x off) (hattr : r.attr = 0) :
    armVa2paHelper cfg tables' x = none := by
  obtain ⟨⟨hva, hsize, hpa⟩, hentries⟩ := setRegion_ok (shift_of_findTable hinfo) hset
  obtain rfl | ⟨-, l2tbl, rfl⟩ := coreMmuFindTable_cases hinfo
  · obtain ⟨hl1, -⟩ := entry_of_section hentries hva hsize hread
    have haligned := @blockPa_aligned r.pa off 20 (Or.inl rfl) hpa
    have htype : getDescType1 (tables'.l1 (x >>> 20).toNat) = .invalid := by
      rw [hl1, hattr, getDescType1_or haligned, mattrToDesc1_zero]
      rfl
    unfold armVa2paHelper XlatTables.walk
    dsimp only
    rw [htype]
    rfl
  · obtain ⟨k, howns, hl2, -⟩ := entry_of_page hentries hva hsize hread
    have haligned := @blockPa_aligned r.pa off 12 (Or.inr rfl) hpa
    have htype : getDescType2 (blockPa r.pa off 12 ||| mattrToDesc2 cfg r.attr) = .invalid := by
      rw [hattr, getDescType2_or haligned, mattrToDesc2_zero]
      rfl
    rw [armVa2paHelper, walk_table howns, hl2, htype]
    rfl

/-- An address for which the region is not read leads where it did before. -/
theorem armVa2pa_setRegion_other
    (hinfo : coreMmuFindTable debug cfg st r.va 0xFFFFFFFF = .ok (some info))
    (hset : setRegion true cfg info r st.tables = .ok tables')
    (hread : ∀ off, ¬ ReadsNew cfg st.tables info r.va r.size x off) :
    armVa2paHelper cfg tables' x = armVa2paHelper cfg st.tables x := by
  obtain ⟨⟨hva, hsize, hpa⟩, hentries⟩ := setRegion_ok (shift_of_findTable hinfo) hset
  have hwalk : tables'.walk cfg x = st.tables.walk cfg x := by
    by_cases hw : info.va2idx r.va < info.va2idx (r.va + r.size)
    swap
    · -- no entry is written
      have hnone : ∀ table i, tableEntry cfg tables' table i = tableEntry cfg st.tables table i :=
        fun table i => hentries.same table i (Or.inr (by omega))
      exact walk_congr_entries (hnone _ _) fun _ _ => hnone _ _
    obtain rfl | ⟨-, l2tbl, rfl⟩ := coreMmuFindTable_cases hinfo
    · -- sections are written, but not the one of the address
      refine walk_congr_entries (hentries.same _ _ (Or.inr fun ⟨hlo, hhi⟩ => ?_)) fun _ _ =>
        hentries.same _ _ (Or.inl TablePtr.noConfusion)
      obtain ⟨hoff, hx⟩ := offset_of_section hva hsize (section_range hw) hlo (by omega)
      exact hread (x - r.va) ⟨hoff, hw, fun _ => hx, fun _ => TablePtr.noConfusion⟩
    · -- pages are written, but not the one of the address in its table
      refine walk_congr_entries (hentries.same _ _ (Or.inl TablePtr.noConfusion)) fun k hk => ?_
      by_cases htable : cfg.tableAt l2tbl = some k
      · refine hentries.same _ _ (Or.inr fun ⟨hlo, hhi⟩ => ?_)
        obtain ⟨off, hoff, hx⟩ := offset_of_page hva hsize (page_range hsize hva hw hentries) hlo
          (Nat.lt_of_lt_of_eq hhi (Nat.add_sub_cancel' (Nat.le_of_lt hw)))
        refine hread off ⟨hoff, hw, TablePtr.noConfusion, fun p hp => ?_⟩
        cases hp
        exact ⟨k, htable, hk, hx⟩
      · refine hentries.same _ _ (Or.inl fun h => htable ?_)
        rw [← TablePtr.second.inj h]
        exact hk.2
  rw [armVa2paHelper, armVa2paHelper, hwalk]

end Region

end SeCloak
