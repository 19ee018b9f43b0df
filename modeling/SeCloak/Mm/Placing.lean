import Mathlib.Data.List.Sort
import SeCloak.Misc.Results
import SeCloak.Mm.VaSpace

/-!
# Where the entries go (`core_mmu.c:510-603`)

Flat entries stay where they are. The others are put one after the other, each at the start of a
section, so ranges are apart and no section is shared between an entry of the secure world and one of
the non-secure world (`va_assigned`).
-/

namespace SeCloak
open Misc

/-! ## Entries -/

/-- The virtual addresses of an entry. -/
def MmapRegion.vspan (r : MmapRegion) : Span := ⟨r.va.toNat, r.va.toNat + r.size.toNat⟩

/-- The entry belongs to the secure world; the reserved ranges do not. -/
def MmapRegion.secure (r : MmapRegion) : Bool :=
  match coreMmuTypeToAttr r.type with
  | .ok attr => attr &&& mattrSecure ≠ 0
  | .error _ => false

/-- Physical address and size are multiples of the region size. -/
def MmapRegion.Sized (r : MmapRegion) : Prop :=
  (r.regionSize = pgdirSize ∧ r.pa.toNat % 2 ^ 20 = 0 ∧ r.size.toNat % 2 ^ 20 = 0) ∨
    (r.regionSize = smallPageSize ∧ r.pa.toNat % 2 ^ 12 = 0 ∧ r.size.toNat % 2 ^ 12 = 0)

section Entries

variable {r r' : MmapRegion}

theorem secure_of_mapIsSecure {s : Bool} (h : mapIsSecure r = .ok s) : r.secure = s := by
  unfold mapIsSecure at h
  unfold MmapRegion.secure
  cases hattr : coreMmuTypeToAttr r.type with
  | error e =>
    rw [hattr] at h
    cases h
  | ok attr =>
    rw [hattr] at h
    exact Except.ok.inj h

theorem secure_of_flat (h : r.isFlatMapped = true) : r.secure = true := by
  unfold MmapRegion.isFlatMapped at h
  unfold MmapRegion.secure
  cases ht : r.type <;> rw [ht] at h <;> first | rfl | cases h

/-- A mask of low bits is zero exactly if each value is a multiple. -/
theorem or_and_mask_eq_zero {a b : Word} {k : Nat} (hk : k < 32) :
    (a ||| b) &&& (BitVec.twoPow 32 k - 1) = 0 ↔
      a.toNat % 2 ^ k = 0 ∧ b.toNat % 2 ^ k = 0 := by
  rw [aligned_iff, aligned_iff]
  constructor
  · intro h
    have hbit : ∀ j < k, a.getLsbD j = false ∧ b.getLsbD j = false := by
      intro j hj
      have hj' : ((a ||| b) &&& (BitVec.twoPow 32 k - 1)).getLsbD j = false := by
        rw [h]
        exact BitVec.getLsbD_zero
      rw [BitVec.getLsbD_and, BitVec.getLsbD_or, getLsbD_twoPow_sub_one hk, decide_eq_true hj,
        Bool.and_true, Bool.or_eq_false_iff] at hj'
      exact hj'
    exact ⟨fun j hj => (hbit j hj).1, fun j hj => (hbit j hj).2⟩
  · rintro ⟨ha, hb⟩
    apply BitVec.eq_of_getLsbD_eq
    intro j _
    rw [BitVec.getLsbD_and, BitVec.getLsbD_or, getLsbD_twoPow_sub_one hk]
    rcases Nat.lt_or_ge j k with hj | hj
    · simp [ha j hj, hb j hj]
    · simp [Nat.not_lt.mpr hj]

theorem assignRegionSize_ok (h : assignRegionSize r = .ok r') :
    r'.Sized ∧ r'.type = r.type ∧ r'.pa = r.pa ∧ r'.size = r.size := by
  unfold assignRegionSize at h
  dsimp only at h
  rw [pgdirSize_eq, smallPageSize_eq] at h
  split at h
  · rename_i hmask
    obtain rfl := Except.ok.inj h
    exact ⟨Or.inl ⟨pgdirSize_eq.symm, (or_and_mask_eq_zero (by decide)).mp hmask⟩, rfl, rfl, rfl⟩
  · split at h
    · rename_i hmask
      obtain rfl := Except.ok.inj h
      exact ⟨Or.inr ⟨smallPageSize_eq.symm, (or_and_mask_eq_zero (by decide)).mp hmask⟩, rfl, rfl, rfl⟩
    · cases h

end Entries

/-! ## The loops -/

/-- A run of the loop, entry by entry. -/
inductive Placed (step : Bool → Word → MmapRegion → Word × Word) :
    Word → Bool → List MmapRegion → List MmapRegion → Prop
  | nil {va : Word} {sec : Bool} : Placed step va sec [] []
  | flat {va : Word} {sec : Bool} {r : MmapRegion} {rs rs' : List MmapRegion}
    (flat : r.isFlatMapped = true) (rest : Placed step va sec rs rs') :
    Placed step va sec (r :: rs) (r :: rs')
  | put {va attr : Word} {sec : Bool} {r : MmapRegion} {rs rs' : List MmapRegion}
    (flat : r.isFlatMapped = false) (hattr : coreMmuTypeToAttr r.type = .ok attr)
    (rest : Placed step (step (sec != r.secure) va r).2 r.secure rs rs') :
    Placed step va sec (r :: rs)
      ({ r with attr := attr, va := (step (sec != r.secure) va r).1 } :: rs')

/-- No address of the loop wraps around. -/
def NoWrap (step : Bool → Word → MmapRegion → Word × Word) (fits : Bool → Word → MmapRegion → Prop) :
    Word → Bool → List MmapRegion → Prop
  | _, _, [] => True
  | va, sec, r :: rs =>
    if r.isFlatMapped then NoWrap step fits va sec rs
    else fits (sec != r.secure) va r ∧ NoWrap step fits (step (sec != r.secure) va r).2 r.secure rs

instance NoWrap.decidable {step : Bool → Word → MmapRegion → Word × Word}
    {fits : Bool → Word → MmapRegion → Prop} [∀ flip va r, Decidable (fits flip va r)] :
    ∀ va sec map, Decidable (NoWrap step fits va sec map)
  | _, _, [] => isTrue trivial
  | va, sec, r :: rs =>
    have := @NoWrap.decidable step fits _ va sec rs
    have := @NoWrap.decidable step fits _ (step (sec != r.secure) va r).2 r.secure rs
    inferInstanceAs (Decidable (if r.isFlatMapped then _ else _))

/-- The entry fits between zero and `va`. -/
def fitsBelow (flip : Bool) (va : Word) (r : MmapRegion) : Prop :=
  r.size ≤ if flip then roundDown va pgdirSize else va

/-- The entry fits between `va` and the end of the address space. -/
def fitsAbove (_ : Bool) (va : Word) (r : MmapRegion) : Prop :=
  va.toNat + (2 ^ 20 - 1) < 2 ^ 32 ∧ (roundUp va pgdirSize).toNat + r.size.toNat < 2 ^ 32

instance (flip : Bool) (va : Word) (r : MmapRegion) : Decidable (fitsBelow flip va r) :=
  inferInstanceAs (Decidable (_ ≤ _))

instance (flip : Bool) (va : Word) (r : MmapRegion) : Decidable (fitsAbove flip va r) :=
  inferInstanceAs (Decidable (_ ∧ _))

section Loops

variable {step : Bool → Word → MmapRegion → Word × Word} {va : Word} {sec : Bool}
  {map map' : List MmapRegion}

theorem placed_of_ok (h : placeFrom step va sec map = .ok map') : Placed step va sec map map' := by
  induction map generalizing va sec map' with
  | nil =>
    obtain rfl := Except.ok.inj h
    exact .nil
  | cons r rs ih =>
    rw [placeFrom] at h
    by_cases hflat : r.isFlatMapped = true
    · rw [if_pos hflat] at h
      obtain ⟨rest, hrest, rfl⟩ := except_map_ok h
      exact .flat hflat (ih hrest)
    · rw [if_neg hflat] at h
      obtain ⟨s, hs, h⟩ := except_bind_ok h
      obtain ⟨attr, hattr, h⟩ := except_bind_ok h
      obtain ⟨rest, hrest, h⟩ := except_bind_ok h
      obtain rfl := Except.ok.inj h
      obtain rfl := secure_of_mapIsSecure hs
      exact .put (Bool.eq_false_iff.mpr hflat) hattr (ih hrest)

/-- An entry of the result is a flat entry of the table, or an entry with a new address. -/
theorem Placed.mem (h : Placed step va sec map map') {q : MmapRegion} (hq : q ∈ map') :
    (q.isFlatMapped = true ∧ q ∈ map) ∨ (q.isFlatMapped = false ∧
      ∃ r ∈ map, ∃ attr va, coreMmuTypeToAttr r.type = .ok attr ∧ q = { r with attr := attr, va := va }) := by
  induction h with
  | nil => cases hq
  | @flat va sec r rs rs' hflat rest ih =>
    rcases List.mem_cons.mp hq with rfl | hq
    · exact Or.inl ⟨hflat, List.mem_cons_self⟩
    · rcases ih hq with ⟨hqf, hmem⟩ | ⟨hqf, r', hmem, hnew⟩
      · exact Or.inl ⟨hqf, List.mem_cons_of_mem _ hmem⟩
      · exact Or.inr ⟨hqf, r', List.mem_cons_of_mem _ hmem, hnew⟩
  | @put va attr sec r rs rs' hflat hattr rest ih =>
    rcases List.mem_cons.mp hq with rfl | hq
    · exact Or.inr ⟨hflat, r, List.mem_cons_self, attr, _, hattr, rfl⟩
    · rcases ih hq with ⟨hqf, hmem⟩ | ⟨hqf, r', hmem, hnew⟩
      · exact Or.inl ⟨hqf, List.mem_cons_of_mem _ hmem⟩
      · exact Or.inr ⟨hqf, r', List.mem_cons_of_mem _ hmem, hnew⟩

/-- What holds between any two flat entries of the table holds in the result. -/
theorem Placed.flats (h : Placed step va sec map map') {R : MmapRegion → MmapRegion → Prop}
    (hR : map.Pairwise fun r q => r.isFlatMapped = true → q.isFlatMapped = true → R r q) :
    map'.Pairwise fun r q => r.isFlatMapped = true → q.isFlatMapped = true → R r q := by
  induction h with
  | nil => exact List.Pairwise.nil
  | @flat va sec r rs rs' hflat rest ih =>
    obtain ⟨hr, hrs⟩ := List.pairwise_cons.mp hR
    refine List.pairwise_cons.mpr ⟨fun q hq hrf hqf => ?_, ih hrs⟩
    rcases rest.mem hq with ⟨-, hmem⟩ | ⟨hnot, -⟩
    · exact hr q hmem hrf hqf
    · rw [hqf] at hnot
      cases hnot
  | @put va attr sec r rs rs' hflat hattr rest ih =>
    refine List.pairwise_cons.mpr ⟨fun q hq hrf => ?_, ih (List.pairwise_cons.mp hR).2⟩
    have hrf' : r.isFlatMapped = true := hrf
    rw [hflat] at hrf'
    cases hrf'

/-- The entries of a run, if `C va sec` says of an entry that it lies beyond the loop at `va`:
what is placed is beyond, what is beyond the next address is beyond this one, and it is related to
the entry placed here. -/
theorem Placed.clear {fits : Bool → Word → MmapRegion → Prop} {C : Word → Bool → MmapRegion → Prop}
    {R : MmapRegion → MmapRegion → Prop} (h : Placed step va sec map map')
    (hsized : ∀ r ∈ map, r.Sized) (hwrap : NoWrap step fits va sec map)
    (hstep : ∀ va sec (r : MmapRegion) attr, r.Sized → fits (sec != r.secure) va r →
      C va sec { r with attr := attr, va := (step (sec != r.secure) va r).1 } ∧
      ∀ q, C (step (sec != r.secure) va r).2 r.secure q → C va sec q ∧
        R { r with attr := attr, va := (step (sec != r.secure) va r).1 } q) :
    (∀ q ∈ map', q.isFlatMapped = false → C va sec q) ∧
    map'.Pairwise fun r q => r.isFlatMapped = false → q.isFlatMapped = false → R r q := by
  induction h with
  | nil =>
    refine ⟨fun q hq => ?_, List.Pairwise.nil⟩
    cases hq
  | @flat va sec r rs rs' hflat rest ih =>
    rw [NoWrap, if_pos hflat] at hwrap
    obtain ⟨hall, hpair⟩ := ih (fun r hr => hsized r (List.mem_cons_of_mem _ hr)) hwrap
    refine ⟨fun q hq hqf => ?_, List.pairwise_cons.mpr ⟨fun q _ hrf => ?_, hpair⟩⟩
    · rcases List.mem_cons.mp hq with rfl | hq
      · rw [hflat] at hqf
        cases hqf
      · exact hall q hq hqf
    · rw [hflat] at hrf
      cases hrf
  | @put va attr sec r rs rs' hflat hattr rest ih =>
    rw [NoWrap, if_neg (Bool.eq_false_iff.mp hflat)] at hwrap
    obtain ⟨hall, hpair⟩ := ih (fun r hr => hsized r (List.mem_cons_of_mem _ hr)) hwrap.2
    obtain ⟨hput, hnext⟩ := hstep va sec r attr (hsized r List.mem_cons_self) hwrap.1
    refine ⟨fun q hq hqf => ?_, List.pairwise_cons.mpr ⟨fun q hq _ hqf => ?_, hpair⟩⟩
    · rcases List.mem_cons.mp hq with rfl | hq
      · exact hput
      · exact (hnext q (hall q hq hqf)).1
    · exact (hnext q (hall q hq hqf)).2

end Loops

/-! ## Below and above -/

/-- No section has addresses of both entries. -/
def SectionsApart (r q : MmapRegion) : Prop :=
  ∀ x y, r.vspan.Has x → q.vspan.Has y → x / 2 ^ 20 ≠ y / 2 ^ 20

theorem SectionsApart.symm {r q : MmapRegion} (h : SectionsApart r q) : SectionsApart q r :=
  fun x y hx hy => (h y x hy hx).symm

theorem SectionsApart.apart {r q : MmapRegion} (h : SectionsApart r q) : r.vspan.Apart q.vspan :=
  fun x hr hq => h x x hr hq rfl

/-- An entry that starts on a section boundary, after the end of the other. -/
theorem sectionsApart_of_le {r q : MmapRegion} (hq : q.va.toNat % 2 ^ 20 = 0)
    (h : r.vspan.hi ≤ q.va.toNat) : SectionsApart r q := by
  intro x y hx hy heq
  have hhi : x < r.vspan.hi := hx.2
  have hlo : q.va.toNat ≤ y := hy.1
  omega

/-- The entry starts on a section boundary and ends before `va`. An entry of the other world ends
before the section of `va`. -/
structure ClearBelow (va : Word) (sec : Bool) (q : MmapRegion) : Prop where
  start : q.va.toNat % 2 ^ 20 = 0
  hi_le : q.vspan.hi ≤ va.toNat
  other : q.secure ≠ sec → q.vspan.hi ≤ va.toNat / 2 ^ 20 * 2 ^ 20

/-- The entry starts on a section boundary after `va`, and does not wrap around. -/
structure ClearAbove (va : Word) (q : MmapRegion) : Prop where
  start : q.va.toNat % 2 ^ 20 = 0
  le_lo : va.toNat ≤ q.va.toNat
  hi_lt : q.vspan.hi < 2 ^ 32

section Steps

variable {va : Word} {sec flip : Bool} {r : MmapRegion}

theorem toNat_roundDown_section (v : Word) :
    (roundDown v pgdirSize).toNat = v.toNat / 2 ^ 20 * 2 ^ 20 := by
  rw [pgdirSize_eq]
  exact toNat_roundDown v (by decide)

theorem stepBelow_toNat (hr : r.Sized) (hfits : fitsBelow flip va r) :
    (stepBelow flip va r).1.toNat =
      ((if flip then va.toNat / 2 ^ 20 * 2 ^ 20 else va.toNat) - r.size.toNat) / 2 ^ 20 * 2 ^ 20 := by
  have hstart : (if flip then roundDown va pgdirSize else va).toNat =
      if flip then va.toNat / 2 ^ 20 * 2 ^ 20 else va.toNat := by
    cases flip with
    | false => rfl
    | true => exact toNat_roundDown_section va
  have hsub : ((if flip then roundDown va pgdirSize else va) - r.size).toNat =
      (if flip then va.toNat / 2 ^ 20 * 2 ^ 20 else va.toNat) - r.size.toNat := by
    rw [BitVec.toNat_sub_of_le hfits, hstart]
  unfold stepBelow
  dsimp only
  rw [toNat_roundDown_section]
  rcases hr with ⟨hsize, -⟩ | ⟨hsize, -⟩
  · rw [hsize, toNat_roundDown_section, hsub]
    omega
  · rw [hsize, smallPageSize_eq, toNat_roundDown _ (by decide), hsub]
    omega

theorem fitsBelow_le (h : fitsBelow flip va r) :
    r.size.toNat ≤ if flip then va.toNat / 2 ^ 20 * 2 ^ 20 else va.toNat := by
  unfold fitsBelow at h
  cases flip with
  | false => exact h
  | true =>
    have hle : r.size.toNat ≤ (roundDown va pgdirSize).toNat := h
    rw [toNat_roundDown_section] at hle
    exact hle

theorem clearBelow_step (attr : Word) (hr : r.Sized) (hfits : fitsBelow (sec != r.secure) va r) :
    ClearBelow va sec { r with attr := attr, va := (stepBelow (sec != r.secure) va r).1 } ∧
    ∀ q, ClearBelow (stepBelow (sec != r.secure) va r).2 r.secure q → ClearBelow va sec q ∧
      SectionsApart { r with attr := attr, va := (stepBelow (sec != r.secure) va r).1 } q := by
  have hva := stepBelow_toNat hr hfits
  have hround : va.toNat / 2 ^ 20 * 2 ^ 20 ≤ va.toNat := Nat.div_mul_le_self _ _
  have hstart : (stepBelow (sec != r.secure) va r).1.toNat % 2 ^ 20 = 0 := by
    rw [hva]
    exact Nat.mul_mod_left _ _
  have hend : (stepBelow (sec != r.secure) va r).1.toNat + r.size.toNat ≤
      if (sec != r.secure) then va.toNat / 2 ^ 20 * 2 ^ 20 else va.toNat := by
    rw [hva]
    exact Nat.le_trans (Nat.add_le_add_right (Nat.div_mul_le_self _ _) _)
      (Nat.le_of_eq (Nat.sub_add_cancel (fitsBelow_le hfits)))
  have hle : (stepBelow (sec != r.secure) va r).1.toNat + r.size.toNat ≤ va.toNat := by
    split at hend <;> omega
  refine ⟨⟨hstart, hle, fun hother => ?_⟩, fun q hq => ⟨⟨hq.start, ?_, fun _ => ?_⟩, ?_⟩⟩
  · have hflip : (sec != r.secure) = true := bne_iff_ne.mpr (Ne.symm hother)
    rw [if_pos hflip] at hend
    exact hend
  · have hhi : q.vspan.hi ≤ (stepBelow (sec != r.secure) va r).1.toNat := hq.hi_le
    omega
  · have hhi : q.vspan.hi ≤ (stepBelow (sec != r.secure) va r).1.toNat := hq.hi_le
    omega
  · exact (sectionsApart_of_le hstart hq.hi_le).symm

theorem toNat_roundUp_section {v : Word} (h : v.toNat + (2 ^ 20 - 1) < 2 ^ 32) :
    (roundUp v pgdirSize).toNat = (v.toNat + (2 ^ 20 - 1)) / 2 ^ 20 * 2 ^ 20 := by
  rw [pgdirSize_eq]
  exact toNat_roundUp (by decide) h

theorem roundUp_section_self {v : Word} (h : v.toNat % 2 ^ 20 = 0) : roundUp v pgdirSize = v := by
  have hlt := v.isLt
  apply BitVec.eq_of_toNat_eq
  rw [toNat_roundUp_section (by omega)]
  omega

theorem roundUp_page_self {v : Word} (h : v.toNat % 2 ^ 20 = 0) : roundUp v smallPageSize = v := by
  have hlt := v.isLt
  apply BitVec.eq_of_toNat_eq
  rw [smallPageSize_eq, toNat_roundUp (by decide) (by omega)]
  omega

theorem roundUp_page_section {v : Word} (h : v.toNat + (2 ^ 20 - 1) < 2 ^ 32) :
    roundUp (roundUp v smallPageSize) pgdirSize = roundUp v pgdirSize := by
  have hpage : (roundUp v smallPageSize).toNat = (v.toNat + (2 ^ 12 - 1)) / 2 ^ 12 * 2 ^ 12 := by
    rw [smallPageSize_eq]
    exact toNat_roundUp (by decide) (by omega)
  apply BitVec.eq_of_toNat_eq
  rw [toNat_roundUp_section (by omega), toNat_roundUp_section h, hpage]
  omega

/-- All three roundings together round up to a section. -/
theorem stepAbove_eq (hr : r.Sized) (hfits : fitsAbove flip va r) :
    (stepAbove flip va r).1 = roundUp va pgdirSize := by
  have halign : (roundUp va pgdirSize).toNat % 2 ^ 20 = 0 := by
    rw [toNat_roundUp_section hfits.1]
    exact Nat.mul_mod_left _ _
  have hsection := roundUp_section_self halign
  unfold stepAbove
  dsimp only
  rcases hr with ⟨hsize, -⟩ | ⟨hsize, -⟩
  · rw [hsize]
    cases flip with
    | true => rw [if_pos rfl, hsection, hsection]
    | false => rw [if_neg Bool.false_ne_true, hsection]
  · rw [hsize]
    cases flip with
    | true => rw [if_pos rfl, roundUp_page_self halign, hsection]
    | false => rw [if_neg Bool.false_ne_true, roundUp_page_section hfits.1]

theorem clearAbove_step (attr : Word) (hr : r.Sized) (hfits : fitsAbove flip va r) :
    ClearAbove va { r with attr := attr, va := (stepAbove flip va r).1 } ∧
    ∀ q, ClearAbove (stepAbove flip va r).2 q → ClearAbove va q ∧
      SectionsApart { r with attr := attr, va := (stepAbove flip va r).1 } q := by
  have hva := stepAbove_eq hr hfits
  have hnat := toNat_roundUp_section hfits.1
  have hle : va.toNat ≤ (stepAbove flip va r).1.toNat := by
    rw [hva, hnat]
    omega
  have hstart : (stepAbove flip va r).1.toNat % 2 ^ 20 = 0 := by
    rw [hva, hnat]
    exact Nat.mul_mod_left _ _
  have hend : (stepAbove flip va r).1.toNat + r.size.toNat < 2 ^ 32 := by
    rw [hva]
    exact hfits.2
  have hnext : (stepAbove flip va r).2.toNat = (stepAbove flip va r).1.toNat + r.size.toNat := by
    change ((stepAbove flip va r).1 + r.size).toNat = _
    rw [BitVec.toNat_add]
    exact Nat.mod_eq_of_lt hend
  refine ⟨⟨hstart, hle, hend⟩, fun q hq => ?_⟩
  have hlo := hq.le_lo
  rw [hnext] at hlo
  exact ⟨⟨hq.start, by omega, hq.hi_lt⟩, sectionsApart_of_le hq.start hlo⟩

end Steps

/-! ## The whole assignment -/

/-- What an entry maps, wherever it is mapped. -/
def MmapRegion.memory (r : MmapRegion) : MemType × Word × Word := (r.type, r.pa, r.size)

/-- Neither rounding nor adding up the sizes leaves the address space. -/
def NeverWraps (cfg : MmuCfg) (map : List MmapRegion) : Prop :=
  if coreMmuPlaceTeeRamAtTop (flatStart map) then
    NoWrap stepBelow fitsBelow (flatStart map) true map
  else
    (flatStart map).toNat + cfg.teeRamVaSize.toNat + (2 ^ 20 - 1) < 2 ^ 32 ∧
      NoWrap stepAbove fitsAbove (placeAboveStart cfg (flatStart map)) true map

instance (cfg : MmuCfg) (map : List MmapRegion) : Decidable (NeverWraps cfg map) :=
  inferInstanceAs (Decidable (if coreMmuPlaceTeeRamAtTop (flatStart map) then _ else _))

/-- The virtual addresses of a table are assigned well. -/
structure VaAssigned (map : List MmapRegion) : Prop where
  apart : map.Pairwise fun r q => r.vspan.Apart q.vspan
  aligned : ∀ r ∈ map, r.va.toNat % r.regionSize.toNat = 0
  start : ∀ r ∈ map, r.isFlatMapped = false → r.va.toNat % 2 ^ 20 = 0
  unmixed : map.Pairwise fun r q => r.secure ≠ q.secure → SectionsApart r q

/-- The table before its entries that are not flat are placed. -/
structure Ready (cfg : MmuCfg) (map : List MmapRegion) : Prop where
  sized : ∀ r ∈ map, r.Sized
  identity : ∀ r ∈ map, r.isFlatMapped = true → r.va = r.pa
  inside : ∀ r ∈ map, r.isFlatMapped = true → cfg.teeRamStart.toNat ≤ r.pa.toNat ∧
    r.pspan.hi ≤ cfg.teeRamStart.toNat + cfg.teeRamVaSize.toNat
  apart : map.Pairwise fun r q =>
    r.isFlatMapped = true → q.isFlatMapped = true → r.pspan.Apart q.pspan

section Assignment

variable {cfg : MmuCfg} {map map' : List MmapRegion} {r r' q : MmapRegion}

theorem sortForPlacing_perm (cfg : MmuCfg) (map : List MmapRegion) :
    (sortForPlacing cfg map).Perm map := by
  have hsorted := cfg.qsort_perm cmpMmapByBiggerRegionSize map
  refine List.Perm.trans ?_ hsorted
  unfold sortForPlacing
  dsimp only
  refine (List.Perm.append_left _ (cfg.qsort_perm _ _)).trans ?_
  rw [List.takeWhile_append_dropWhile]

theorem isFlatMapped_congr (h : r'.type = r.type) : r'.isFlatMapped = r.isFlatMapped := by
  unfold MmapRegion.isFlatMapped
  rw [h]

theorem mapFlat_ok (h : mapFlat r = .ok r') :
    r'.type = r.type ∧ r'.pa = r.pa ∧ r'.size = r.size ∧ r'.regionSize = r.regionSize ∧
      (r'.isFlatMapped = true → r'.va = r'.pa ∧ coreMmuTypeToAttr r'.type = .ok r'.attr) := by
  unfold mapFlat at h
  split at h
  · obtain ⟨attr, hattr, rfl⟩ := except_map_ok h
    exact ⟨rfl, rfl, rfl, rfl, fun _ => ⟨rfl, hattr⟩⟩
  · rename_i hflat
    obtain rfl := Except.ok.inj h
    exact ⟨rfl, rfl, rfl, rfl, fun hf => absurd hf hflat⟩

theorem memory_of_forall₂ {f : MmapRegion → Except Fault MmapRegion}
    (hf : ∀ r r', f r = .ok r' → r'.memory = r.memory)
    (h : List.Forall₂ (fun r r' => f r = .ok r') map map') :
    map'.map MmapRegion.memory = map.map MmapRegion.memory := by
  induction h with
  | nil => rfl
  | @cons r r' rs rs' hr _ ih => rw [List.map_cons, List.map_cons, ih, hf r r' hr]

theorem Placed.memory {step : Bool → Word → MmapRegion → Word × Word} {va : Word} {sec : Bool}
    (h : Placed step va sec map map') : map'.map MmapRegion.memory = map.map MmapRegion.memory := by
  induction h with
  | nil => rfl
  | flat _ _ ih => rw [List.map_cons, List.map_cons, ih]
  | put _ _ _ ih =>
    rw [List.map_cons, List.map_cons, ih]
    rfl

theorem flatStart_le (hr : r ∈ map) (hflat : r.isFlatMapped = true) :
    (flatStart map).toNat ≤ r.pa.toNat := by
  induction map with
  | nil => cases hr
  | cons q qs ih =>
    rw [flatStart]
    rcases List.mem_cons.mp hr with rfl | hr
    · have hround : (roundDown r.pa r.regionSize).toNat ≤ r.pa.toNat := by
        rw [roundDown, BitVec.toNat_and]
        exact Nat.and_le_left
      rw [if_pos hflat, toNat_wordMin]
      omega
    · have hle := ih hr
      split
      · rw [toNat_wordMin]
        omega
      · exact hle

theorem pspan_congr (hpa : r'.pa = r.pa) (hsize : r'.size = r.size) : r'.pspan = r.pspan := by
  unfold MmapRegion.pspan
  rw [hpa, hsize]

theorem mem_of_beforePlacing (h : beforePlacing cfg map = .ok map') (hq : q ∈ map') :
    ∃ r ∈ map, q.Sized ∧ q.type = r.type ∧ q.pa = r.pa ∧ q.size = r.size ∧
      (q.isFlatMapped = true → q.va = q.pa ∧ coreMmuTypeToAttr q.type = .ok q.attr) := by
  obtain ⟨map₁, h₁, h⟩ := except_bind_ok h
  obtain ⟨r₁, hr₁, hq'⟩ := exists_of_forall₂ (forall₂_of_mapM h) hq
  obtain ⟨r, hr, hr'⟩ := exists_of_forall₂ (forall₂_of_mapM h₁) ((sortForPlacing_perm cfg map₁).subset hr₁)
  obtain ⟨htype, hpa, hsize, hregion, hva⟩ := mapFlat_ok hq'
  obtain ⟨hsized, htype₁, hpa₁, hsize₁⟩ := assignRegionSize_ok hr'
  refine ⟨r, hr, ?_, htype.trans htype₁, hpa.trans hpa₁, hsize.trans hsize₁, hva⟩
  unfold MmapRegion.Sized at hsized ⊢
  rw [hpa, hsize, hregion]
  exact hsized

theorem ready_of_beforePlacing
    (hinside : ∀ r ∈ map, r.isFlatMapped = true → cfg.teeRamStart.toNat ≤ r.pa.toNat ∧
      r.pspan.hi ≤ cfg.teeRamStart.toNat + cfg.teeRamVaSize.toNat)
    (hapart : map.Pairwise fun r q =>
      r.isFlatMapped = true → q.isFlatMapped = true → r.pspan.Apart q.pspan)
    (h : beforePlacing cfg map = .ok map') :
    Ready cfg map' ∧ (map'.map MmapRegion.memory).Perm (map.map MmapRegion.memory) := by
  have hfrom := fun q => @mem_of_beforePlacing cfg map map' q h
  obtain ⟨map₁, h₁, h⟩ := except_bind_ok h
  have hassign := forall₂_of_mapM h₁
  have hflat := forall₂_of_mapM h
  have hperm := sortForPlacing_perm cfg map₁
  have hpair₁ := pairwise_of_forall₂ (Q := fun r q =>
    r.isFlatMapped = true → q.isFlatMapped = true → r.pspan.Apart q.pspan) hassign
    (fun r q r' q' hrq hr hq => by
      obtain ⟨-, htr, hpr, hsr⟩ := assignRegionSize_ok hr
      obtain ⟨-, htq, hpq, hsq⟩ := assignRegionSize_ok hq
      rw [isFlatMapped_congr htr, isFlatMapped_congr htq, pspan_congr hpr hsr, pspan_congr hpq hsq]
      exact hrq) hapart
  have hpair₂ := (hperm.pairwise_iff fun {r q} hrq hq hr => (hrq hr hq).symm).mpr hpair₁
  have hpair := pairwise_of_forall₂ (Q := fun r q =>
    r.isFlatMapped = true → q.isFlatMapped = true → r.pspan.Apart q.pspan) hflat
    (fun r q r' q' hrq hr hq => by
      obtain ⟨htr, hpr, hsr, -⟩ := mapFlat_ok hr
      obtain ⟨htq, hpq, hsq, -⟩ := mapFlat_ok hq
      rw [isFlatMapped_congr htr, isFlatMapped_congr htq, pspan_congr hpr hsr, pspan_congr hpq hsq]
      exact hrq) hpair₂
  refine ⟨⟨fun q hq => ?_, fun q hq => ?_, fun q hq hqf => ?_, hpair⟩, ?_⟩
  · obtain ⟨r, -, hsized, -⟩ := hfrom q hq
    exact hsized
  · obtain ⟨r, -, -, -, -, -, hva⟩ := hfrom q hq
    exact fun hflat => (hva hflat).1
  · obtain ⟨r, hr, -, htype, hpa, hsize, -⟩ := hfrom q hq
    rw [isFlatMapped_congr htype] at hqf
    rw [pspan_congr hpa hsize, hpa]
    exact hinside r hr hqf
  · rw [memory_of_forall₂ (fun r r' hr => ?_) hflat]
    · refine (hperm.map _).trans ?_
      rw [memory_of_forall₂ (fun r r' hr => ?_) hassign]
      obtain ⟨-, htype, hpa, hsize⟩ := assignRegionSize_ok hr
      unfold MmapRegion.memory
      rw [htype, hpa, hsize]
    · obtain ⟨htype, hpa, hsize, -⟩ := mapFlat_ok hr
      unfold MmapRegion.memory
      rw [htype, hpa, hsize]

/-- An entry that is not flat is beside a flat one. -/
def Beside (p q : MmapRegion) : Prop :=
  p.vspan.Apart q.vspan ∧ (q.secure = false → SectionsApart p q)

/-- What is to be shown for the pairs of entries, by how they are mapped. -/
theorem compatible_of_parts
    (hflats : map.Pairwise fun r q =>
      r.isFlatMapped = true → q.isFlatMapped = true → r.vspan.Apart q.vspan)
    (hothers : map.Pairwise fun r q =>
      r.isFlatMapped = false → q.isFlatMapped = false → SectionsApart r q)
    (hbeside : ∀ p ∈ map, ∀ q ∈ map, p.isFlatMapped = true → q.isFlatMapped = false → Beside p q) :
    map.Pairwise fun r q => r.vspan.Apart q.vspan ∧ (r.secure ≠ q.secure → SectionsApart r q) := by
  refine (hflats.and hothers).imp_of_mem ?_
  rintro r q hr hq ⟨hflat, hother⟩
  cases hrf : r.isFlatMapped with
  | true =>
    cases hqf : q.isFlatMapped with
    | true =>
      refine ⟨hflat hrf hqf, fun hne => ?_⟩
      rw [secure_of_flat hrf, secure_of_flat hqf] at hne
      exact absurd rfl hne
    | false =>
      obtain ⟨hapart, hsections⟩ := hbeside r hr q hq hrf hqf
      refine ⟨hapart, fun hne => hsections ?_⟩
      rw [secure_of_flat hrf] at hne
      exact Bool.eq_false_iff.mpr hne.symm
  | false =>
    cases hqf : q.isFlatMapped with
    | true =>
      obtain ⟨hapart, hsections⟩ := hbeside q hq r hr hqf hrf
      refine ⟨hapart.symm, fun hne => (hsections ?_).symm⟩
      rw [secure_of_flat hqf] at hne
      exact Bool.eq_false_iff.mpr hne
    | false => exact ⟨(hother hrf hqf).apart, fun _ => hother hrf hqf⟩

theorem Ready.vspan_flat (h : Ready cfg map) (hr : r ∈ map) (hflat : r.isFlatMapped = true) :
    r.vspan = r.pspan := by
  unfold MmapRegion.vspan MmapRegion.pspan
  rw [h.identity r hr hflat]

theorem Ready.beside_below (h : Ready cfg map) (hr : r ∈ map) (hflat : r.isFlatMapped = true)
    (hq : ClearBelow (flatStart map) true q) : Beside r q := by
  have hstart := flatStart_le hr hflat
  have hva : r.va.toNat = r.pa.toNat := congrArg BitVec.toNat (h.identity r hr hflat)
  have hlo : (flatStart map).toNat ≤ r.va.toNat := by omega
  constructor
  · exact (Span.apart_of_le (Nat.le_trans hq.hi_le hlo)).symm
  · intro hsec x y hx hy heq
    have hhi := hq.other (by rw [hsec]; exact Bool.false_ne_true)
    have hy' : y < q.vspan.hi := hy.2
    have hx' : r.va.toNat ≤ x := hx.1
    omega

theorem Ready.beside_above (h : Ready cfg map) (hr : r ∈ map) (hflat : r.isFlatMapped = true)
    (hle : cfg.teeRamStart ≤ flatStart map)
    (hwrap : (flatStart map).toNat + cfg.teeRamVaSize.toNat + (2 ^ 20 - 1) < 2 ^ 32)
    (hq : ClearAbove (placeAboveStart cfg (flatStart map)) q) : Beside r q := by
  have hinside := (h.inside r hr hflat).2
  have hle' : cfg.teeRamStart.toNat ≤ (flatStart map).toNat := hle
  have hadd : (flatStart map + cfg.teeRamVaSize).toNat =
      (flatStart map).toNat + cfg.teeRamVaSize.toNat := by
    rw [BitVec.toNat_add]
    exact Nat.mod_eq_of_lt (by omega)
  have hlo := hq.le_lo
  rw [placeAboveStart, toNat_roundUp_section (by rw [hadd]; exact hwrap), hadd] at hlo
  have hhi : r.vspan.hi ≤ q.va.toNat := by
    rw [h.vspan_flat hr hflat]
    omega
  exact ⟨Span.apart_of_le hhi, fun _ => sectionsApart_of_le hq.start hhi⟩

/-- What one of the loops leaves, if what it places is beside the flat entries. -/
theorem Ready.vaAssigned {step : Bool → Word → MmapRegion → Word × Word} {va : Word}
    (h : Ready cfg map) (hrun : Placed step va true map map')
    (hstart : ∀ q ∈ map', q.isFlatMapped = false → q.va.toNat % 2 ^ 20 = 0)
    (hothers : map'.Pairwise fun r q =>
      r.isFlatMapped = false → q.isFlatMapped = false → SectionsApart r q)
    (hbeside : ∀ p ∈ map, ∀ q ∈ map', p.isFlatMapped = true → q.isFlatMapped = false → Beside p q) :
    VaAssigned map' := by
  have hflats : map.Pairwise fun r q =>
      r.isFlatMapped = true → q.isFlatMapped = true → r.vspan.Apart q.vspan := by
    refine h.apart.imp_of_mem ?_
    intro r q hr hq hrq hrf hqf
    rw [h.vspan_flat hr hrf, h.vspan_flat hq hqf]
    exact hrq hrf hqf
  have hold : ∀ p ∈ map', p.isFlatMapped = true → p ∈ map := by
    intro p hp hpf
    rcases hrun.mem hp with ⟨-, hmem⟩ | ⟨hnot, -⟩
    · exact hmem
    · rw [hpf] at hnot
      cases hnot
  have hpairs := compatible_of_parts (hrun.flats hflats) hothers
    fun p hp q hq hpf hqf => hbeside p (hold p hp hpf) q hq hpf hqf
  refine ⟨hpairs.imp And.left, fun q hq => ?_, hstart, hpairs.imp And.right⟩
  rcases hrun.mem hq with ⟨hqf, hmem⟩ | ⟨hqf, r, hmem, attr, va, -, rfl⟩
  · have hva := congrArg BitVec.toNat (h.identity q hmem hqf)
    rcases h.sized q hmem with ⟨hsize, hpa, -⟩ | ⟨hsize, hpa, -⟩
    · rw [hsize, hva]
      exact hpa
    · rw [hsize, hva]
      exact hpa
  · have hva := hstart _ hq hqf
    rcases h.sized r hmem with ⟨hsize, -⟩ | ⟨hsize, -⟩
    · exact hsize ▸ hva
    · have hva' : va.toNat % 2 ^ 20 = 0 := hva
      change va.toNat % r.regionSize.toNat = 0
      rw [hsize]
      change va.toNat % 4096 = 0
      omega

theorem VaAssigned.perm (h : VaAssigned map) (hperm : map'.Perm map) : VaAssigned map' := by
  refine ⟨?_, fun r hr => ?_, fun r hr => ?_, ?_⟩
  · exact (hperm.pairwise_iff fun {r q} hrq => hrq.symm).mpr h.apart
  · exact h.aligned r (hperm.subset hr)
  · exact h.start r (hperm.subset hr)
  · exact (hperm.pairwise_iff fun {r q} hrq hne => (hrq hne.symm).symm).mpr h.unmixed

theorem vaAssigned_of_placeNonFlat (h : Ready cfg map) (hwrap : NeverWraps cfg map)
    (hrun : placeNonFlat cfg map = .ok map') :
    VaAssigned map' ∧ map'.map MmapRegion.memory = map.map MmapRegion.memory := by
  unfold placeNonFlat at hrun
  dsimp only at hrun
  unfold NeverWraps at hwrap
  split at hrun
  · cases hrun
  · rename_i hle
    split at hrun
    · cases hrun
    · split at hrun
      · rename_i htop
        rw [if_pos htop] at hwrap
        have hplaced := placed_of_ok hrun
        obtain ⟨hall, hpair⟩ := hplaced.clear h.sized hwrap
          fun va sec r attr hr hfits => clearBelow_step attr hr hfits
        refine ⟨h.vaAssigned hplaced (fun q hq hqf => (hall q hq hqf).start) hpair ?_, hplaced.memory⟩
        exact fun p hp q hq hpf hqf => h.beside_below hp hpf (hall q hq hqf)
      · rename_i htop
        rw [if_neg htop] at hwrap
        have hplaced := placed_of_ok hrun
        obtain ⟨hall, hpair⟩ := hplaced.clear (C := fun va _ q => ClearAbove va q)
          h.sized hwrap.2 fun va sec r attr hr hfits => clearAbove_step attr hr hfits
        refine ⟨h.vaAssigned hplaced (fun q hq hqf => (hall q hq hqf).start) hpair ?_, hplaced.memory⟩
        exact fun p hp q hq hpf hqf =>
          h.beside_above hp hpf (BitVec.not_lt.mp hle) hwrap.1 (hall q hq hqf)

/-- What the assignment leaves in an entry, wherever it goes. -/
theorem mem_of_placeMemMap (h : placeMemMap cfg map = .ok map') (hq : q ∈ map') :
    q.Sized ∧ coreMmuTypeToAttr q.type = .ok q.attr ∧ (q.isFlatMapped = true → q.va = q.pa) := by
  obtain ⟨ready, hready, h⟩ := except_bind_ok h
  obtain ⟨placed, hplaced, h⟩ := except_bind_ok h
  obtain rfl := Except.ok.inj h
  have hq' : q ∈ placed := (cfg.qsort_perm cmpMmapByLowerVa placed).subset hq
  have hrun : ∃ step va, Placed step va true ready placed := by
    unfold placeNonFlat at hplaced
    dsimp only at hplaced
    split at hplaced
    · cases hplaced
    · split at hplaced
      · cases hplaced
      · split at hplaced
        · exact ⟨_, _, placed_of_ok hplaced⟩
        · exact ⟨_, _, placed_of_ok hplaced⟩
  obtain ⟨step, va, hrun⟩ := hrun
  rcases hrun.mem hq' with ⟨hflat, hmem⟩ | ⟨hflat, r, hmem, attr, va, hattr, rfl⟩
  · obtain ⟨r, -, hsized, -, -, -, hva⟩ := mem_of_beforePlacing hready hmem
    exact ⟨hsized, (hva hflat).2, fun _ => (hva hflat).1⟩
  · obtain ⟨r', -, hsized, -⟩ := mem_of_beforePlacing hready hmem
    refine ⟨hsized, hattr, fun hf => ?_⟩
    rw [hflat] at hf
    cases hf

/-- The addresses that the assignment gives to a table, in either direction. -/
theorem va_assigned
    (hinside : ∀ r ∈ map, r.isFlatMapped = true → cfg.teeRamStart.toNat ≤ r.pa.toNat ∧
      r.pspan.hi ≤ cfg.teeRamStart.toNat + cfg.teeRamVaSize.toNat)
    (hapart : map.Pairwise fun r q =>
      r.isFlatMapped = true → q.isFlatMapped = true → r.pspan.Apart q.pspan)
    (hwrap : ∀ ready, beforePlacing cfg map = .ok ready → NeverWraps cfg ready)
    (h : placeMemMap cfg map = .ok map') :
    VaAssigned map' ∧ (map'.map MmapRegion.memory).Perm (map.map MmapRegion.memory) := by
  obtain ⟨ready, hready, h⟩ := except_bind_ok h
  obtain ⟨placed, hplaced, h⟩ := except_bind_ok h
  obtain rfl := Except.ok.inj h
  obtain ⟨hr, hmem⟩ := ready_of_beforePlacing hinside hapart hready
  obtain ⟨hva, hmem'⟩ := vaAssigned_of_placeNonFlat hr (hwrap ready hready) hplaced
  have hperm := cfg.qsort_perm cmpMmapByLowerVa placed
  refine ⟨hva.perm hperm, (hperm.map _).trans ?_⟩
  rw [hmem']
  exact hmem

theorem placeMemMap_of_initMemMap {mems special : List PhysMem}
    (h : initMemMap cfg mems special = .ok map) : ∃ table, placeMemMap cfg table = .ok map := by
  obtain ⟨filled, -, h⟩ := except_bind_ok h
  obtain ⟨-, -, h⟩ := except_bind_ok h
  obtain ⟨reserved, -, h⟩ := except_bind_ok h
  obtain ⟨table, -, h⟩ := except_bind_ok h
  exact ⟨table, h⟩

end Assignment

/-- TEE RAM at 0x4E000000, sorted by insertion. -/
def insertionCfg : MmuCfg where
  teeRamStart := 0x4E000000
  teeRamVaSize := 0x100000
  qsort cmp map := map.insertionSort fun a b => cmp a b ≤ 0
  qsort_perm _ map := List.perm_insertionSort _ map

/-- RAM of the TEE, a page of non-secure RAM, I/O memory and a reserved range. -/
def smallTable : List MmapRegion :=
  [{ type := .teeRamRx, pa := 0x4E000000, size := 0x80000 },
    { type := .teeRamRw, pa := 0x4E080000, size := 0x1000 },
    { type := .ramNsec, pa := 0x10001000, size := 0x1000 },
    { type := .ioSec, pa := 0x02000000, size := 0x100000 },
    { type := .resVaspace, size := 0xA00000 }]

theorem va_assigned_small :
    ∃ map', placeMemMap insertionCfg smallTable = .ok map' ∧ VaAssigned map' := by
  have hrun : ∃ map', placeMemMap insertionCfg smallTable = .ok map' := ⟨_, rfl⟩
  have hwrap : ∀ ready ∈ (beforePlacing insertionCfg smallTable).toOption,
      NeverWraps insertionCfg ready := by decide +kernel
  have hpairs : smallTable.Pairwise fun r q =>
      r.isFlatMapped = true → q.isFlatMapped = true → r.pspan.hi ≤ q.pspan.lo := by decide
  obtain ⟨map', h⟩ := hrun
  refine ⟨map', h, (va_assigned ?_ ?_ (fun ready hready => hwrap ready ?_) h).1⟩
  · decide
  · exact hpairs.imp fun hle hr hq => Span.apart_of_le (hle hr hq)
  · rw [hready]
    rfl

end SeCloak
