import SeCloak.Mm.Dynamic

/-!
# Reading entries back (`core_mmu_v7.c:273-341,487-534`)

`desc_to_mattr` is the inverse of `mattr_to_desc` on the bits that a descriptor has. A small page has no
bit for the secure state, which is the one of its table, and the permissions of user mode are derived
from those of the kernel.
-/

namespace SeCloak
open Misc

/-! ## Decoding -/

/-- `texcb_to_mattr` (`core_mmu_v7.c:273-279`). -/
def texcbToMattr (texcb : Word) : Word := texcb <<< 12

/-- `get_desc_type` (`core_mmu_v7.c:249-271`). -/
def getDescType (level : Nat) (desc : Word) : DescType :=
  if level = 1 then getDescType1 desc else getDescType2 desc

/-- The attributes of a section (`core_mmu_v7.c:298-320`). -/
def sectionMattr (desc : Word) : Word :=
  let a := mattrValidBlock
  let a := if desc &&& sectionAccessFlag ≠ 0 then
    a ||| (mattrPr ||| mattrPx) ||| (mattrUr ||| mattrUx) else a
  let a := if desc &&& sectionRo = 0 then a ||| mattrPw ||| mattrUw else a
  let a := if desc &&& sectionXn ≠ 0 then a &&& ~~~(mattrPx ||| mattrUx) else a
  let a := if desc &&& sectionPxn ≠ 0 then a &&& ~~~mattrPx else a
  let a := a ||| texcbToMattr (((desc >>> 12) &&& 7#32) ||| ((desc >>> 2) &&& 3#32))
  let a := if desc &&& sectionNotglobal = 0 then a ||| mattrGlobal else a
  if desc &&& sectionNotsecure = 0 then a ||| mattrSecure else a

/-- The attributes of a small page (`core_mmu_v7.c:322-336`). -/
def smallPageMattr (desc : Word) : Word :=
  let a := mattrValidBlock
  let a := if desc &&& smallPageAccessFlag ≠ 0 then
    a ||| (mattrPr ||| mattrPx) ||| (mattrUr ||| mattrUx) else a
  let a := if desc &&& smallPageRo = 0 then a ||| mattrPw ||| mattrUw else a
  let a := if desc &&& smallPageXn ≠ 0 then a &&& ~~~(mattrPx ||| mattrUx) else a
  let a := a ||| texcbToMattr (((desc >>> 6) &&& 7#32) ||| ((desc >>> 2) &&& 3#32))
  if desc &&& smallPageNotglobal = 0 then a ||| mattrGlobal else a

/-- `desc_to_mattr` (`core_mmu_v7.c:288-341`). -/
def descToMattr (level : Nat) (desc : Word) : Word :=
  match getDescType level desc with
  | .pageTable => mattrTable ||| descFlag (desc &&& sectionPtNotsecure = 0) mattrSecure
  | .section => sectionMattr desc
  | .smallPage => smallPageMattr desc
  | .invalid =>
    if desc &&& 4 ≠ 0 then mattrHiddenBlock
    else if desc &&& 8 ≠ 0 then mattrHiddenDirtyBlock
    else 0
  | .superSection | .largePage => 0

/-- The mask of `desc_to_pa` (`core_mmu_v7.c:500-518`). -/
def paMask : DescType → Word
  | .pageTable => (1 <<< 10) - 1
  | .section => (1 <<< 20) - 1
  | .superSection => (1 <<< 24) - 1
  | .largePage => (1 <<< 16) - 1
  | .smallPage => (1 <<< 12) - 1
  | .invalid => (1 <<< 4) - 1

/-- `desc_to_pa` (`core_mmu_v7.c:496-521`). -/
def descToPa (level : Nat) (desc : Word) : Word := desc &&& ~~~paMask (getDescType level desc)

/-- An entry of a table. -/
def tableEntry (cfg : XlatCfg) (tables : XlatTables) (table : TablePtr) (idx : Nat) : Option Word :=
  match table with
  | .main => some (tables.l1 idx)
  | .second l2tbl => (cfg.tableAt l2tbl).map fun k => tables.l2 k idx

/-- `core_mmu_get_entry_primitive` (`core_mmu_v7.c:523-534`): the address and the attributes. -/
def coreMmuGetEntryPrimitive (cfg : XlatCfg) (info : CoreMmuTableInfo) (idx : Nat)
    (tables : XlatTables) : Except Fault (Word × Word) :=
  match tableEntry cfg tables info.table idx with
  | some desc => .ok (descToPa info.level desc, descToMattr info.level desc)
  | none => .error .undefined

/-- `mattr_to_desc` (`core_mmu_v7.c:343-441`). -/
def mattrToDesc (cfg : XlatCfg) (level : Nat) (attr : Word) : Word :=
  if level = 1 then mattrToDesc1 cfg attr else mattrToDesc2 cfg attr

/-- The number of address bits below a block of a level. -/
def blockShift (level : Nat) : Nat := if level = 1 then 20 else 12

/-! ## The flags of a descriptor -/

section Flags

variable {base flags : Word} {k : Nat}

/-- A flag below the address is the one of the flags. -/
theorem or_and_of_aligned (hbase : base.toNat % 2 ^ k = 0) {m : Word} (hm : m.toNat < 2 ^ k) :
    (base ||| flags) &&& m = flags &&& m := by
  rw [BitVec.and_or_distrib_right, and_eq_zero_of_aligned hbase hm, BitVec.zero_or]

/-- So is a field. -/
theorem shift_or_and_of_aligned {s : Nat} (hbase : base.toNat % 2 ^ (s + k) = 0) {m : Word}
    (hm : m.toNat < 2 ^ k) : ((base ||| flags) >>> s) &&& m = (flags >>> s) &&& m := by
  have hshift : (base >>> s).toNat % 2 ^ k = 0 := by
    rw [BitVec.toNat_ushiftRight, Nat.shiftRight_eq_div_pow, ← Nat.mod_mul_right_div_self, ← Nat.pow_add,
      hbase, Nat.zero_div]
  rw [BitVec.ushiftRight_or_distrib]
  exact or_and_of_aligned hshift hm

theorem sectionMattr_or (hbase : base.toNat % 2 ^ 20 = 0) :
    sectionMattr (base ||| flags) = sectionMattr flags := by
  have hand : ∀ m : Word, m.toNat < 2 ^ 20 → (base ||| flags) &&& m = flags &&& m :=
    fun m hm => or_and_of_aligned hbase hm
  have htex : ((base ||| flags) >>> 12) &&& 7#32 = (flags >>> 12) &&& 7#32 :=
    shift_or_and_of_aligned (k := 8) hbase (by decide)
  have hcb : ((base ||| flags) >>> 2) &&& 3#32 = (flags >>> 2) &&& 3#32 :=
    shift_or_and_of_aligned (k := 18) hbase (by decide)
  unfold sectionMattr
  rw [hand sectionAccessFlag (by decide), hand sectionRo (by decide), hand sectionXn (by decide),
    hand sectionPxn (by decide), htex, hcb, hand sectionNotglobal (by decide),
    hand sectionNotsecure (by decide)]

theorem smallPageMattr_or (hbase : base.toNat % 2 ^ 12 = 0) :
    smallPageMattr (base ||| flags) = smallPageMattr flags := by
  have hand : ∀ m : Word, m.toNat < 2 ^ 12 → (base ||| flags) &&& m = flags &&& m :=
    fun m hm => or_and_of_aligned hbase hm
  have htex : ((base ||| flags) >>> 6) &&& 7#32 = (flags >>> 6) &&& 7#32 :=
    shift_or_and_of_aligned (k := 6) hbase (by decide)
  have hcb : ((base ||| flags) >>> 2) &&& 3#32 = (flags >>> 2) &&& 3#32 :=
    shift_or_and_of_aligned (k := 10) hbase (by decide)
  unfold smallPageMattr
  rw [hand smallPageAccessFlag (by decide), hand smallPageRo (by decide),
    hand smallPageXn (by decide), htex, hcb, hand smallPageNotglobal (by decide)]

end Flags

/-! ## Round trip -/

/-- The permissions of user mode. -/
def userMattr : Word := mattrUr ||| mattrUw ||| mattrUx

/-- The attributes that a descriptor of a level keeps. A small page has no bit for the secure state. -/
def keptMattr (level : Nat) (attr : Word) : Word :=
  if level = 1 then attr else attr &&& ~~~mattrSecure

/-- The permissions of the kernel, the cache attributes, and the global and secure bits are read
back. -/
theorem mattr_of_desc (cfg : XlatCfg) {attr : Word} (h : attr ∈ mapAttrs) :
    sectionMattr (mattrToDesc1 cfg attr) &&& ~~~userMattr = keptMattr 1 attr &&& ~~~userMattr ∧
      smallPageMattr (mattrToDesc2 cfg attr) &&& ~~~userMattr = keptMattr 2 attr &&& ~~~userMattr := by
  have hall : ∀ smp pxn, mapAttrs.all fun attr => decide
      (sectionMattr (mattrToDesc1 (plainCfg smp pxn) attr) &&& ~~~userMattr =
          keptMattr 1 attr &&& ~~~userMattr ∧
        smallPageMattr (mattrToDesc2 (plainCfg smp pxn) attr) &&& ~~~userMattr =
          keptMattr 2 attr &&& ~~~userMattr) := by
    decide +kernel
  exact of_decide_eq_true (List.all_eq_true.mp (hall cfg.smp cfg.pxn) attr h)

/-- A descriptor is taken apart into its address and its attributes. -/
theorem desc_round_trip (cfg : XlatCfg) {attr pa : Word} {level : Nat} (hattr : attr ∈ mapAttrs)
    (hlevel : level = 1 ∨ level = 2) (hpa : pa.toNat % 2 ^ blockShift level = 0) :
    descToPa level (mattrToDesc cfg level attr ||| pa) = pa ∧
      descToMattr level (mattrToDesc cfg level attr ||| pa) &&& ~~~userMattr =
        keptMattr level attr &&& ~~~userMattr := by
  have hdesc := descOk_of_mem cfg hattr
  rw [BitVec.or_comm]
  rcases hlevel with rfl | rfl
  · have htype : getDescType 1 (pa ||| mattrToDesc cfg 1 attr) = .section :=
      (getDescType1_or hpa).trans hdesc.section_type
    have hmattr : sectionMattr (pa ||| mattrToDesc cfg 1 attr) = sectionMattr (mattrToDesc cfg 1 attr) :=
      sectionMattr_or hpa
    rw [descToPa, descToMattr, htype]
    refine ⟨or_not_section hpa hdesc.section_lt, ?_⟩
    rw [hmattr]
    exact (mattr_of_desc cfg hattr).1
  · have htype : getDescType 2 (pa ||| mattrToDesc cfg 2 attr) = .smallPage :=
      (getDescType2_or hpa).trans hdesc.page_type
    have hmattr : smallPageMattr (pa ||| mattrToDesc cfg 2 attr) =
        smallPageMattr (mattrToDesc cfg 2 attr) := smallPageMattr_or hpa
    rw [descToPa, descToMattr, htype]
    refine ⟨or_not_page hpa hdesc.page_lt, ?_⟩
    rw [hmattr]
    exact (mattr_of_desc cfg hattr).2

section Tables

variable {cfg : XlatCfg} {info : CoreMmuTableInfo} {idx i : Nat} {pa attr : Word}
  {tables tables' : XlatTables} {table : TablePtr}

theorem tableEntry_second {l2tbl : Word} {k : Nat} (hk : cfg.tableAt l2tbl = some k) :
    tableEntry cfg tables (.second l2tbl) i = some (tables.l2 k i) := by
  unfold tableEntry
  dsimp only
  rw [hk]
  rfl

/-- The entry that was written holds the descriptor. -/
theorem tableEntry_set_self (h : coreMmuSetEntryPrimitive cfg info idx pa attr tables = .ok tables') :
    tableEntry cfg tables' info.table idx = some (mattrToDesc cfg info.level attr ||| pa) := by
  unfold coreMmuSetEntryPrimitive at h
  cases htable : info.table with
  | main =>
    rw [htable] at h
    obtain rfl := Except.ok.inj h
    exact congrArg some (XlatTables.setL1_l1_self _ _ _)
  | second l2tbl =>
    rw [htable] at h
    dsimp only at h
    cases hk : cfg.tableAt l2tbl with
    | none => simp [hk] at h
    | some k =>
      rw [hk] at h
      obtain rfl := Except.ok.inj h
      rw [tableEntry_second hk, XlatTables.setL2_l2_self]
      rfl

/-- The address of a second level table determines the table. -/
theorem tableAt_inj {p q : Word} {k : Nat} (hp : cfg.tableAt p = some k) (hq : cfg.tableAt q = some k) :
    p = q := by
  unfold XlatCfg.tableAt at hp hq
  have hpk := List.find?_some hp
  have hqk := List.find?_some hq
  exact (of_decide_eq_true hpk).symm.trans (of_decide_eq_true hqk)

/-- All other entries of all tables stay. -/
theorem tableEntry_set_other (h : coreMmuSetEntryPrimitive cfg info idx pa attr tables = .ok tables')
    (hne : table ≠ info.table ∨ i ≠ idx) :
    tableEntry cfg tables' table i = tableEntry cfg tables table i := by
  unfold coreMmuSetEntryPrimitive at h
  cases htable : info.table with
  | main =>
    rw [htable] at h hne
    obtain rfl := Except.ok.inj h
    cases table with
    | main =>
      have hi : i ≠ idx := hne.resolve_left fun hmain => hmain rfl
      exact congrArg some (XlatTables.setL1_l1_of_ne _ _ hi)
    | second q => rfl
  | second l2tbl =>
    rw [htable] at h hne
    dsimp only at h
    cases hk : cfg.tableAt l2tbl with
    | none => simp [hk] at h
    | some k =>
      rw [hk] at h
      obtain rfl := Except.ok.inj h
      cases table with
      | main => rfl
      | second q =>
        cases hq : cfg.tableAt q with
        | none =>
          unfold tableEntry
          dsimp only
          rw [hq]
          rfl
        | some j =>
          rw [tableEntry_second hq, tableEntry_second hq]
          by_cases hjk : j = k
          · subst hjk
            have hi : i ≠ idx := hne.resolve_left fun hdiff => hdiff (by rw [tableAt_inj hq hk])
            exact congrArg some (XlatTables.setL2_l2_of_ne _ _ _ hi)
          · exact congrArg some (congrFun (XlatTables.setL2_l2_other _ _ _ hjk) i)

end Tables

/-- An entry that is written for a mapped type reads back with its address, and with the attributes
that the descriptor keeps; no other entry changes. -/
theorem getEntry_setEntry (cfg : XlatCfg) (info : CoreMmuTableInfo) (idx : Nat) (pa attr : Word)
    (tables tables' : XlatTables) (type : MemType) (hlevel : info.level = 1 ∨ info.level = 2)
    (hpa : pa.toNat % 2 ^ blockShift info.level = 0) (htype : coreMmuTypeToAttr type = .ok attr)
    (hmapped : attr ≠ 0)
    (hset : coreMmuSetEntryPrimitive cfg info idx pa attr tables = .ok tables') :
    (∃ a, coreMmuGetEntryPrimitive cfg info idx tables' = .ok (pa, a) ∧
      a &&& ~~~userMattr = keptMattr info.level attr &&& ~~~userMattr) ∧
    ∀ table i, table ≠ info.table ∨ i ≠ idx →
      tableEntry cfg tables' table i = tableEntry cfg tables table i := by
  have hattr := mem_mapAttrs htype hmapped
  obtain ⟨hpa', hmattr⟩ := desc_round_trip cfg hattr hlevel hpa
  refine ⟨⟨_, ?_, hmattr⟩, fun table i hne => tableEntry_set_other hset hne⟩
  rw [coreMmuGetEntryPrimitive, tableEntry_set_self hset]
  exact congrArg (fun p => Except.ok (p, _)) hpa'

/-- A configuration with its second level tables at 16 MB. -/
def sampleXlat : XlatCfg where
  smp := true
  pxn := true
  l2Ttb := 0x01000000
  aligned := by decide
  fits := by decide

/-- Tables without entries. -/
def noTables : XlatTables := { l1 := fun _ => 0, l2 := fun _ _ => 0, used := 0 }

/-- A section of non-secure I/O memory. -/
theorem getEntry_setEntry_section :
    ∃ a, coreMmuGetEntryPrimitive sampleXlat (coreMmuSetInfoTable 1 0 .main) 0x20
        (noTables.setL1 0x20 (mattrToDesc1 sampleXlat 0x0431 ||| 0x02000000)) = .ok (0x02000000, a) ∧
      a &&& ~~~userMattr = keptMattr 1 0x0431 &&& ~~~userMattr :=
  (getEntry_setEntry sampleXlat (coreMmuSetInfoTable 1 0 .main) 0x20 0x02000000 0x0431 noTables
    (noTables.setL1 0x20 (mattrToDesc1 sampleXlat 0x0431 ||| 0x02000000)) .ioNsec (Or.inl rfl)
    (by decide) rfl (by decide) rfl).1

/-- The section of the TEE reads back with permissions of user mode, and its page without the secure
bit as well. -/
theorem getEntry_setEntry_teeRam :
    coreMmuTypeToAttr .teeRam = .ok 0x1C71 ∧
    coreMmuGetEntryPrimitive sampleXlat (coreMmuSetInfoTable 1 0 .main) 0x4E
        (noTables.setL1 0x4E (mattrToDesc1 sampleXlat 0x1C71 ||| 0x4E000000)) =
      .ok (0x4E000000, 0x1FF1) ∧
    coreMmuGetEntryPrimitive sampleXlat (coreMmuSetInfoTable 2 0 (.second 0x01000000)) 5
        (noTables.setL2 0 5 (mattrToDesc2 sampleXlat 0x1C71 ||| 0x4E005000)) =
      .ok (0x4E005000, 0x17F1) ∧
    (0x1FF1 : Word) ≠ 0x1C71 ∧ (0x17F1 : Word) ≠ 0x1C71 := by
  refine ⟨rfl, ?_, ?_, ?_⟩ <;> decide +kernel

end SeCloak
