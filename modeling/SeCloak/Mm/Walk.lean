import SeCloak.Misc.BitField
import SeCloak.Mm.Tables

/-!
# Descriptors and lookup

A descriptor is an address with flags below it. The lookup of an address depends on the two entries on
its way.
-/

namespace SeCloak
open Misc

/-! ## Masks -/

section Masks

variable (v : Word)

theorem toNat_section : (v &&& sectionMask).toNat = v.toNat % 2 ^ 20 := by
  rw [BitVec.toNat_and]
  exact Nat.and_two_pow_sub_one_eq_mod _ 20

theorem toNat_page : (v &&& smallPageMask).toNat = v.toNat % 2 ^ 12 := by
  rw [BitVec.toNat_and]
  exact Nat.and_two_pow_sub_one_eq_mod _ 12

theorem toNat_table : (v &&& tableMask).toNat = v.toNat % 2 ^ 10 := by
  rw [BitVec.toNat_and]
  exact Nat.and_two_pow_sub_one_eq_mod _ 10

theorem and_section_eq_zero : v &&& sectionMask = 0#32 ↔ v.toNat % 2 ^ 20 = 0 := by
  rw [← toNat_section]
  exact ⟨fun h => congrArg BitVec.toNat h, fun h => BitVec.eq_of_toNat_eq h⟩

theorem and_page_eq_zero : v &&& smallPageMask = 0#32 ↔ v.toNat % 2 ^ 12 = 0 := by
  rw [← toNat_page]
  exact ⟨fun h => congrArg BitVec.toNat h, fun h => BitVec.eq_of_toNat_eq h⟩

theorem toNat_not_section : (v &&& ~~~sectionMask).toNat = v.toNat / 2 ^ 20 * 2 ^ 20 :=
  @toNat_roundDown v 20 (by decide)

theorem toNat_not_page : (v &&& ~~~smallPageMask).toNat = v.toNat / 2 ^ 12 * 2 ^ 12 :=
  @toNat_roundDown v 12 (by decide)

theorem toNat_not_table : (v &&& ~~~tableMask).toNat = v.toNat / 2 ^ 10 * 2 ^ 10 :=
  @toNat_roundDown v 10 (by decide)

theorem toNat_shift20 : (v >>> 20).toNat = v.toNat / 2 ^ 20 := by
  rw [BitVec.toNat_ushiftRight, Nat.shiftRight_eq_div_pow]

theorem toNat_shift12 : (v >>> 12).toNat = v.toNat / 2 ^ 12 := by
  rw [BitVec.toNat_ushiftRight, Nat.shiftRight_eq_div_pow]

end Masks

/-! ## Descriptors -/

/-- What the descriptors for an attribute are, in either level. -/
structure DescOk (cfg : XlatCfg) (attr : Word) : Prop where
  valid : attr &&& mattrValidBlock ≠ 0
  section_type : getDescType1 (mattrToDesc1 cfg attr) = .section
  section_lt : (mattrToDesc1 cfg attr).toNat < 2 ^ 20
  table_type : getDescType1 (mattrToDesc1 cfg (attr ||| mattrTable)) = .pageTable
  table_lt : (mattrToDesc1 cfg (attr ||| mattrTable)).toNat < 2 ^ 10
  page_type : getDescType2 (mattrToDesc2 cfg attr) = .smallPage
  page_lt : (mattrToDesc2 cfg attr).toNat < 2 ^ 12

/-- A configuration of the processor alone. -/
def plainCfg (smp pxn : Bool) : XlatCfg where
  smp := smp
  pxn := pxn
  l2Ttb := 0
  aligned := rfl
  fits := by decide

instance (cfg : XlatCfg) (attr : Word) : Decidable (DescOk cfg attr) :=
  decidable_of_iff (attr &&& mattrValidBlock ≠ 0 ∧ getDescType1 (mattrToDesc1 cfg attr) = .section ∧
    (mattrToDesc1 cfg attr).toNat < 2 ^ 20 ∧
    getDescType1 (mattrToDesc1 cfg (attr ||| mattrTable)) = .pageTable ∧
    (mattrToDesc1 cfg (attr ||| mattrTable)).toNat < 2 ^ 10 ∧
    getDescType2 (mattrToDesc2 cfg attr) = .smallPage ∧ (mattrToDesc2 cfg attr).toNat < 2 ^ 12)
    ⟨fun ⟨h₁, h₂, h₃, h₄, h₅, h₆, h₇⟩ => ⟨h₁, h₂, h₃, h₄, h₅, h₆, h₇⟩,
      fun h => ⟨h.1, h.2, h.3, h.4, h.5, h.6, h.7⟩⟩

/-- The attributes that the entries of a memory map have. -/
def mapAttrs : List Word :=
  [0x1C71, 0x1C51, 0x1C11, 0x1C31, 0x1431, 0x0431, 0x0C31]

theorem mem_mapAttrs {type : MemType} {attr : Word} (h : coreMmuTypeToAttr type = .ok attr)
    (hne : attr ≠ 0) : attr ∈ mapAttrs := by
  cases type <;> first
    | (obtain rfl := Except.ok.inj h; first | decide | exact absurd rfl hne)
    | cases h

theorem descOk_of_mem (cfg : XlatCfg) {attr : Word} (h : attr ∈ mapAttrs) : DescOk cfg attr := by
  have hall : ∀ smp pxn, mapAttrs.all fun attr => DescOk (plainCfg smp pxn) attr := by decide +kernel
  have hcfg := of_decide_eq_true (List.all_eq_true.mp (hall cfg.smp cfg.pxn) attr h)
  exact ⟨hcfg.1, hcfg.2, hcfg.3, hcfg.4, hcfg.5, hcfg.6, hcfg.7⟩

/-- The descriptors of two attributes agree in one level only if the attributes do. -/
theorem attr_eq_of_desc (cfg : XlatCfg) {a b : Word} (ha : a ∈ mapAttrs) (hb : b ∈ mapAttrs)
    (h : mattrToDesc1 cfg a = mattrToDesc1 cfg b ∨
      (mattrToDesc1 cfg (a ||| mattrTable) = mattrToDesc1 cfg (b ||| mattrTable) ∧
        mattrToDesc2 cfg a = mattrToDesc2 cfg b)) : a = b := by
  have hall : ∀ smp pxn, mapAttrs.all fun a => mapAttrs.all fun b => decide
      ((mattrToDesc1 (plainCfg smp pxn) a = mattrToDesc1 (plainCfg smp pxn) b ∨
        (mattrToDesc1 (plainCfg smp pxn) (a ||| mattrTable) =
            mattrToDesc1 (plainCfg smp pxn) (b ||| mattrTable) ∧
          mattrToDesc2 (plainCfg smp pxn) a = mattrToDesc2 (plainCfg smp pxn) b)) → a = b) := by
    decide +kernel
  have hrow := List.all_eq_true.mp (hall cfg.smp cfg.pxn) a ha
  exact of_decide_eq_true (List.all_eq_true.mp hrow b hb) h

section Types

variable {base flags : Word}

/-- The address in a descriptor does not change its type. -/
theorem getDescType1_or (hbase : base.toNat % 2 ^ 20 = 0) :
    getDescType1 (base ||| flags) = getDescType1 flags := by
  have hzero : ∀ m : Word, m.toNat < 2 ^ 20 → (base ||| flags) &&& m = flags &&& m := by
    intro m hm
    rw [BitVec.and_or_distrib_right, and_eq_zero_of_aligned hbase hm, BitVec.zero_or]
  unfold getDescType1
  rw [hzero 3 (by decide), hzero 2 (by decide), hzero (1 <<< 18) (by decide)]

theorem getDescType1_table_or (hbase : base.toNat % 2 ^ 10 = 0)
    (h : getDescType1 flags = .pageTable) : getDescType1 (base ||| flags) = .pageTable := by
  have hthree : (base ||| flags) &&& 3 = flags &&& 3 := by
    rw [BitVec.and_or_distrib_right, and_eq_zero_of_aligned hbase (by decide), BitVec.zero_or]
  unfold getDescType1 at h ⊢
  rw [hthree]
  split at h
  · rename_i h1
    rw [if_pos h1]
  · split at h
    · split at h <;> cases h
    · cases h

theorem getDescType2_or (hbase : base.toNat % 2 ^ 12 = 0) :
    getDescType2 (base ||| flags) = getDescType2 flags := by
  have hzero : ∀ m : Word, m.toNat < 2 ^ 12 → (base ||| flags) &&& m = flags &&& m := by
    intro m hm
    rw [BitVec.and_or_distrib_right, and_eq_zero_of_aligned hbase hm, BitVec.zero_or]
  unfold getDescType2
  rw [hzero 3 (by decide), hzero 2 (by decide)]

end Types

section Fields

variable {base flags : Word}

theorem or_not_section (hbase : base.toNat % 2 ^ 20 = 0) (hflags : flags.toNat < 2 ^ 20) :
    (base ||| flags) &&& ~~~sectionMask = base := by
  apply BitVec.eq_of_toNat_eq
  rw [toNat_not_section, toNat_or_of_aligned hbase hflags]
  omega

theorem or_section (hbase : base.toNat % 2 ^ 20 = 0) (hflags : flags.toNat < 2 ^ 20) :
    (base ||| flags) &&& sectionMask = flags := by
  apply BitVec.eq_of_toNat_eq
  rw [toNat_section, toNat_or_of_aligned hbase hflags]
  omega

theorem or_not_page (hbase : base.toNat % 2 ^ 12 = 0) (hflags : flags.toNat < 2 ^ 12) :
    (base ||| flags) &&& ~~~smallPageMask = base := by
  apply BitVec.eq_of_toNat_eq
  rw [toNat_not_page, toNat_or_of_aligned hbase hflags]
  omega

theorem or_page (hbase : base.toNat % 2 ^ 12 = 0) (hflags : flags.toNat < 2 ^ 12) :
    (base ||| flags) &&& smallPageMask = flags := by
  apply BitVec.eq_of_toNat_eq
  rw [toNat_page, toNat_or_of_aligned hbase hflags]
  omega

theorem or_not_table (hbase : base.toNat % 2 ^ 10 = 0) (hflags : flags.toNat < 2 ^ 10) :
    (base ||| flags) &&& ~~~tableMask = base := by
  apply BitVec.eq_of_toNat_eq
  rw [toNat_not_table, toNat_or_of_aligned hbase hflags]
  omega

theorem or_table (hbase : base.toNat % 2 ^ 10 = 0) (hflags : flags.toNat < 2 ^ 10) :
    (base ||| flags) &&& tableMask = flags := by
  apply BitVec.eq_of_toNat_eq
  rw [toNat_table, toNat_or_of_aligned hbase hflags]
  omega

end Fields

/-! ## Second level tables -/

section L2

variable (cfg : XlatCfg) {k : Nat}

theorem toNat_l2Addr (hk : k < 8) : (cfg.l2Addr k).toNat = cfg.l2Ttb.toNat + k * 1024 := by
  have hfits := cfg.fits
  rw [XlatCfg.l2Addr, BitVec.toNat_add, BitVec.toNat_ofNat]
  omega

theorem l2Addr_aligned (k : Nat) : (cfg.l2Addr k).toNat % 2 ^ 10 = 0 := by
  have haligned := cfg.aligned
  rw [XlatCfg.l2Addr, BitVec.toNat_add, BitVec.toNat_ofNat]
  omega

theorem tableAt_l2Addr (hk : k < 8) : cfg.tableAt (cfg.l2Addr k) = some k := by
  unfold XlatCfg.tableAt
  rw [List.find?_range_eq_some]
  refine ⟨decide_eq_true rfl, List.mem_range.mpr hk, fun j hj => ?_⟩
  simp only [Bool.not_eq_true', decide_eq_false_iff_not]
  intro heq
  have hnat := congrArg BitVec.toNat heq
  rw [toNat_l2Addr cfg hk, toNat_l2Addr cfg (by omega)] at hnat
  omega

theorem lt_of_tableAt {cfg : XlatCfg} {pa : Word} (h : cfg.tableAt pa = some k) : k < 8 :=
  List.mem_range.mp (List.mem_of_find?_eq_some h)

end L2

/-- A descriptor that leads to a second level table. -/
def Owns (cfg : XlatCfg) (desc : Word) (k : Nat) : Prop :=
  getDescType1 desc = .pageTable ∧ cfg.tableAt (desc &&& ~~~tableMask) = some k

theorem owns_l2Addr {cfg : XlatCfg} {flags : Word} {k : Nat} (hk : k < 8)
    (htype : getDescType1 flags = .pageTable) (hlt : flags.toNat < 2 ^ 10) :
    Owns cfg (cfg.l2Addr k ||| flags) k := by
  refine ⟨getDescType1_table_or (l2Addr_aligned cfg k) htype, ?_⟩
  rw [or_not_table (l2Addr_aligned cfg k) hlt]
  exact tableAt_l2Addr cfg hk

theorem Owns.inj {cfg : XlatCfg} {desc : Word} {j k : Nat} (hj : Owns cfg desc j)
    (hk : Owns cfg desc k) : j = k := by
  have heq := hj.2
  rw [hk.2] at heq
  exact (Option.some.inj heq).symm

/-! ## Lookup -/

section Lookup

variable {cfg : XlatCfg} {st st' : XlatTables} {x : Word} {k : Nat}

theorem walk_section (h : getDescType1 (st.l1 (x >>> 20).toNat) = .section) :
    st.walk cfg x = some ⟨(st.l1 (x >>> 20).toNat &&& ~~~sectionMask) ||| (x &&& sectionMask),
      st.l1 (x >>> 20).toNat &&& sectionMask, none⟩ := by
  unfold XlatTables.walk
  dsimp only
  rw [h]

theorem walk_table (h : Owns cfg (st.l1 (x >>> 20).toNat) k) :
    st.walk cfg x =
      if getDescType2 (st.l2 k ((x >>> 12).toNat % 256)) = .smallPage then
        some ⟨(st.l2 k ((x >>> 12).toNat % 256) &&& ~~~smallPageMask) ||| (x &&& smallPageMask),
          st.l1 (x >>> 20).toNat &&& tableMask,
          some (st.l2 k ((x >>> 12).toNat % 256) &&& smallPageMask)⟩
      else none := by
  unfold XlatTables.walk
  dsimp only
  rw [h.1]
  dsimp only
  rw [h.2]
  rfl

theorem walk_empty (h : st.l1 (x >>> 20).toNat = 0) : st.walk cfg x = none := by
  unfold XlatTables.walk
  dsimp only
  rw [h]
  rfl

/-- Only the entries on the way count. -/
theorem walk_congr (h1 : st'.l1 (x >>> 20).toNat = st.l1 (x >>> 20).toNat)
    (h2 : ∀ k, Owns cfg (st.l1 (x >>> 20).toNat) k →
      st'.l2 k ((x >>> 12).toNat % 256) = st.l2 k ((x >>> 12).toNat % 256)) :
    st'.walk cfg x = st.walk cfg x := by
  unfold XlatTables.walk
  dsimp only
  rw [h1]
  cases htype : getDescType1 (st.l1 (x >>> 20).toNat) with
  | pageTable =>
    dsimp only
    cases htable : cfg.tableAt (st.l1 (x >>> 20).toNat &&& ~~~tableMask) with
    | none => rfl
    | some k =>
      have hk := h2 k ⟨htype, htable⟩
      simp only [Option.bind_some]
      rw [hk]
  | _ => rfl

end Lookup

end SeCloak
