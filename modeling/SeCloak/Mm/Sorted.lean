import SeCloak.Isoc.QsortLists
import SeCloak.Mm.Placing

/-!
# The order of the memory map

`init_mem_map` sorts its table three times. Here `qsort` is the one of the kernel's C library: entries that are
mapped in units of a page directory come first and the others have the secure ones first, which is what the loops
that place them rely on, and the table that results is in the order of the virtual addresses.
-/

namespace SeCloak
open Misc

/-- The configuration with the `qsort` of `qsort.c`. -/
def libcCfg (teeRamStart teeRamVaSize : Word) : MmuCfg where
  teeRamStart := teeRamStart
  teeRamVaSize := teeRamVaSize
  qsort := Qsort.sort
  qsort_perm := Qsort.sort_perm

section Order

variable {start size : Word} {map table : List MmapRegion}

/-- A difference that fits in an `int`. -/
theorem toInt_sub {x y : Word} (hxy : x.toNat < y.toNat + 2 ^ 31) (hyx : y.toNat < x.toNat + 2 ^ 31) :
    (x - y).toInt = x.toNat - y.toNat := by
  have hx := x.isLt
  have hy := y.isLt
  rw [BitVec.toInt_eq_toNat_bmod, BitVec.toNat_sub]
  rcases Nat.le_total y.toNat x.toNat with hle | hle
  · have hmod : (2 ^ 32 - y.toNat + x.toNat) % 2 ^ 32 = x.toNat - y.toNat := by omega
    rw [hmod, Int.bmod_def]
    omega
  · rw [Int.bmod_def]
    omega

/-- The comparison of numbers that are less than 2^31 apart. -/
theorem consistent_sub {α : Type} (key : α → Word) (hnear : ∀ x y, (key x).toNat < (key y).toNat + 2 ^ 31) :
    Qsort.Consistent fun x y => (key x - key y).toInt := by
  have hval : ∀ x y, (key x - key y).toInt = (key x).toNat - (key y).toNat :=
    fun x y => toInt_sub (hnear x y) (hnear y x)
  constructor
  · intro x y
    rw [hval, hval]
    omega
  · intro x y z hxy hyz
    rw [hval] at hxy hyz ⊢
    omega

/-- The table that `init_mem_map` returns is in the order of the virtual addresses, if these are less than 2^31
apart. -/
theorem placeMemMap_sorted (h : placeMemMap (libcCfg start size) table = .ok map)
    (hnear : ∀ r ∈ map, ∀ q ∈ map, r.va.toNat < q.va.toNat + 2 ^ 31) : map.Pairwise fun r q => r.va ≤ q.va := by
  obtain ⟨ready, -, h⟩ := except_bind_ok h
  obtain ⟨placed, -, h⟩ := except_bind_ok h
  obtain rfl := Except.ok.inj h
  have hmem : ∀ r ∈ placed, r ∈ (libcCfg start size).qsort cmpMmapByLowerVa placed :=
    fun r hr => (Qsort.sort_perm cmpMmapByLowerVa placed).mem_iff.mpr hr
  have hcmp : Qsort.Consistent (Qsort.on cmpMmapByLowerVa (Subtype.val : {r // r ∈ placed} → MmapRegion)) :=
    consistent_sub (fun r : {r // r ∈ placed} => r.val.va)
      fun r q => hnear r.val (hmem r.val r.property) q.val (hmem q.val q.property)
  refine (Qsort.sort_pairwise_of_mem hcmp).imp_of_mem fun {r q} hr hq hle => ?_
  rw [cmpMmapByLowerVa, toInt_sub (hnear r hr q hq) (hnear q hq r hr)] at hle
  rw [BitVec.le_def]
  omega

theorem placeMemMap_sorted_small : ∃ map, placeMemMap (libcCfg 0x4E000000 0x100000) smallTable = .ok map ∧
    map.Pairwise fun r q => r.va ≤ q.va := by
  have hrun : ∃ map, placeMemMap (libcCfg 0x4E000000 0x100000) smallTable = .ok map := ⟨_, rfl⟩
  have hnear : ∀ map ∈ (placeMemMap (libcCfg 0x4E000000 0x100000) smallTable).toOption,
      ∀ r ∈ map, ∀ q ∈ map, r.va.toNat < q.va.toNat + 2 ^ 31 := by decide +kernel
  obtain ⟨map, h⟩ := hrun
  refine ⟨map, h, placeMemMap_sorted h (hnear map ?_)⟩
  rw [h]
  rfl

/-! ## The order for placing -/

theorem consistent_reverse {α : Type} {cmp : α → α → Int} (h : Qsort.Consistent cmp) :
    Qsort.Consistent fun x y => cmp y x :=
  ⟨fun x y => h.flip y x, fun x y z hxy hyz => h.trans z y x hyz hxy⟩

/-- Entries in units of a page directory come first. -/
theorem sort_regionSize (hsizes : ∀ r ∈ map, r.regionSize = pgdirSize ∨ r.regionSize = smallPageSize) :
    (Qsort.sort cmpMmapByBiggerRegionSize map).Pairwise fun r q => q.isPgdir = true → r.isPgdir = true := by
  have hcmp : Qsort.Consistent (Qsort.on cmpMmapByBiggerRegionSize (Subtype.val : {r // r ∈ map} → MmapRegion)) := by
    refine consistent_reverse (consistent_sub (fun r : {r // r ∈ map} => r.val.regionSize) fun r q => ?_)
    rcases hsizes r.val r.property with hr | hr <;> rcases hsizes q.val q.property with hq | hq <;>
      rw [hr, hq] <;> decide
  refine (Qsort.sort_pairwise_of_mem hcmp).imp_of_mem fun {r q} hr hq hle hpgdir => ?_
  have hr' := hsizes r ((Qsort.sort_perm _ map).subset hr)
  rw [MmapRegion.isPgdir, decide_eq_true_iff] at hpgdir ⊢
  rcases hr' with hr' | hr'
  · exact hr'
  · rw [cmpMmapByBiggerRegionSize, hpgdir, hr'] at hle
    exact absurd hle (by decide)

/-- Whether the attributes of an entry are secure, as a number. -/
def secureBit (r : MmapRegion) : Int :=
  match mapIsSecure r with
  | .ok true => 1
  | _ => 0

theorem secureBit_eq {r : MmapRegion} {x : Word} (h : coreMmuTypeToAttr r.type = .ok x) :
    secureBit r = if x &&& mattrSecure ≠ 0 then 1 else 0 := by
  have hsecure : mapIsSecure r = .ok (decide (x &&& mattrSecure ≠ 0)) := by
    rw [mapIsSecure, h]
    rfl
  rw [secureBit, hsecure]
  by_cases hx : x &&& mattrSecure ≠ 0
  · rw [if_pos hx, decide_eq_true hx]
  · rw [if_neg hx, decide_eq_false hx]

theorem cmpMmapBySecureAttr_eq {r q : MmapRegion} (hr : ∃ attr, coreMmuTypeToAttr r.type = .ok attr ∧ attr ≠ 0)
    (hq : ∃ attr, coreMmuTypeToAttr q.type = .ok attr ∧ attr ≠ 0) :
    cmpMmapBySecureAttr r q = secureBit q - secureBit r := by
  obtain ⟨x, hx, hx'⟩ := hr
  obtain ⟨y, hy, hy'⟩ := hq
  rw [cmpMmapBySecureAttr, secureBit_eq hx, secureBit_eq hy, hx, hy]
  exact if_neg fun h => h.elim hx' hy'

/-- Secure entries come first, if all have attributes. -/
theorem sort_secureAttr (hattr : ∀ r ∈ map, ∃ attr, coreMmuTypeToAttr r.type = .ok attr ∧ attr ≠ 0) :
    (Qsort.sort cmpMmapBySecureAttr map).Pairwise fun r q => mapIsSecure q = .ok true → mapIsSecure r = .ok true := by
  have hcmp : Qsort.Consistent (Qsort.on cmpMmapBySecureAttr (Subtype.val : {r // r ∈ map} → MmapRegion)) := by
    have hval : ∀ r q : {r // r ∈ map}, Qsort.on cmpMmapBySecureAttr Subtype.val r q =
        secureBit q.val - secureBit r.val :=
      fun r q => cmpMmapBySecureAttr_eq (hattr r.val r.property) (hattr q.val q.property)
    constructor
    · intro r q
      rw [hval, hval]
      omega
    · intro r q t hrq hqt
      rw [hval] at hrq hqt ⊢
      omega
  refine (Qsort.sort_pairwise_of_mem hcmp).imp_of_mem fun {r q} hr hq hle hsecure => ?_
  have hperm := Qsort.sort_perm cmpMmapBySecureAttr map
  rw [cmpMmapBySecureAttr_eq (hattr r (hperm.subset hr)) (hattr q (hperm.subset hq))] at hle
  have hone : secureBit q = 1 := by rw [secureBit, hsecure]
  rw [hone, secureBit] at hle
  split at hle
  next hr => exact hr
  next => omega

theorem not_of_mem_dropWhile {α : Type} {p : α → Bool} {l : List α}
    (h : l.Pairwise fun x y => p y = true → p x = true) : ∀ x ∈ l.dropWhile p, p x = false := by
  induction l with
  | nil => simp
  | cons y l ih =>
    rw [List.pairwise_cons] at h
    intro x hx
    cases hy : p y with
    | true =>
      rw [List.dropWhile_cons_of_pos hy] at hx
      exact ih h.2 x hx
    | false =>
      rw [List.dropWhile_cons_of_neg (by simp [hy])] at hx
      rcases List.mem_cons.mp hx with rfl | hx
      · exact hy
      · by_contra hpx
        exact absurd (h.1 x hx (by simpa using hpx)) (by simp [hy])

/-- The order in which the entries are placed: those in units of a page directory first, and of the others the
secure ones first. -/
theorem sortForPlacing_order (hsizes : ∀ r ∈ map, r.regionSize = pgdirSize ∨ r.regionSize = smallPageSize)
    (hattr : ∀ r ∈ map, r.isPgdir = false → ∃ attr, coreMmuTypeToAttr r.type = .ok attr ∧ attr ≠ 0) :
    (sortForPlacing (libcCfg start size) map).Pairwise fun r q => (q.isPgdir = true → r.isPgdir = true) ∧
      (r.isPgdir = false → mapIsSecure q = .ok true → mapIsSecure r = .ok true) := by
  have hfirst := sort_regionSize hsizes
  have hperm := Qsort.sort_perm cmpMmapByBiggerRegionSize map
  rw [sortForPlacing]
  change (List.takeWhile _ (Qsort.sort cmpMmapByBiggerRegionSize map) ++
    Qsort.sort cmpMmapBySecureAttr (List.dropWhile _ (Qsort.sort cmpMmapByBiggerRegionSize map))).Pairwise _
  generalize Qsort.sort cmpMmapByBiggerRegionSize map = sorted at *
  have hsmall := not_of_mem_dropWhile hfirst
  have hperm' := Qsort.sort_perm cmpMmapBySecureAttr (sorted.dropWhile MmapRegion.isPgdir)
  have hlarge : ∀ r ∈ sorted.takeWhile MmapRegion.isPgdir, r.isPgdir = true := fun r hr =>
    List.all_eq_true.mp List.all_takeWhile r hr
  refine List.pairwise_append.mpr ⟨?_, ?_, fun r hr q hq => ?_⟩
  · refine (List.pairwise_of_forall fun _ _ => trivial).imp_of_mem fun {r q} hr hq _ => ?_
    exact ⟨fun _ => hlarge r hr, fun hno => absurd (hlarge r hr) (by simp [hno])⟩
  · have hsecure := sort_secureAttr fun r hr =>
      hattr r (hperm.subset ((List.dropWhile_sublist _).subset hr)) (hsmall r hr)
    refine hsecure.imp_of_mem fun {r q} hr hq hle => ⟨fun hpgdir => ?_, fun _ => hle⟩
    exact absurd hpgdir (by simp [hsmall q (hperm'.subset hq)])
  · exact ⟨fun _ => hlarge r hr, fun hno => absurd (hlarge r hr) (by simp [hno])⟩

theorem attr_ne_zero {r : MmapRegion} {attr : Word} (h : coreMmuTypeToAttr r.type = .ok attr)
    (hstatic : r.isDynamicVaspace = false) : attr ≠ 0 := by
  rintro rfl
  rw [MmapRegion.isDynamicVaspace] at hstatic
  cases htype : r.type <;> rw [htype] at h hstatic <;> first | exact absurd hstatic (by decide) | cases h

/-- The order of the table that `init_mem_map` places, if the ranges without attributes are in units of a page
directory. -/
theorem beforePlacing_order (h : beforePlacing (libcCfg start size) table = .ok map)
    (htypes : ∀ r ∈ table, ∃ attr, coreMmuTypeToAttr r.type = .ok attr)
    (hunits : ∀ r ∈ table, r.isDynamicVaspace = true → (r.pa ||| r.size) &&& (pgdirSize - 1) = 0) :
    map.Pairwise fun r q => (q.isPgdir = true → r.isPgdir = true) ∧
      (r.isPgdir = false → mapIsSecure q = .ok true → mapIsSecure r = .ok true) := by
  obtain ⟨sized, hsized, h⟩ := except_bind_ok h
  have hassign := forall₂_of_mapM hsized
  have horder : (sortForPlacing (libcCfg start size) sized).Pairwise fun r q =>
      (q.isPgdir = true → r.isPgdir = true) ∧
        (r.isPgdir = false → mapIsSecure q = .ok true → mapIsSecure r = .ok true) := by
    refine sortForPlacing_order (fun r hr => ?_) fun r hr hsmall => ?_
    · obtain ⟨q, -, hq⟩ := exists_of_forall₂ hassign hr
      obtain ⟨hunit, -⟩ := assignRegionSize_ok hq
      rcases hunit with ⟨hunit, -⟩ | ⟨hunit, -⟩
      · exact .inl hunit
      · exact .inr hunit
    · obtain ⟨q, hq, hqr⟩ := exists_of_forall₂ hassign hr
      obtain ⟨-, htype, -, -⟩ := assignRegionSize_ok hqr
      obtain ⟨attr, hattr⟩ := htypes q hq
      refine ⟨attr, htype ▸ hattr, attr_ne_zero hattr ?_⟩
      by_contra hdyn
      have hunit := hunits q hq (by simpa using hdyn)
      rw [assignRegionSize] at hqr
      rw [if_pos hunit] at hqr
      obtain rfl := Except.ok.inj hqr
      exact absurd hsmall (by simp [MmapRegion.isPgdir])
  refine pairwise_of_forall₂ (forall₂_of_mapM h) (fun r q r' q' hrq hr hq => ?_) horder
  obtain ⟨htr, -, -, hsr, -⟩ := mapFlat_ok hr
  obtain ⟨htq, -, -, hsq, -⟩ := mapFlat_ok hq
  rw [MmapRegion.isPgdir, MmapRegion.isPgdir, mapIsSecure, mapIsSecure, htr, htq, hsr, hsq]
  exact hrq

theorem beforePlacing_order_small : ∃ map, beforePlacing (libcCfg 0x4E000000 0x100000) smallTable = .ok map ∧
    map.Pairwise fun r q => (q.isPgdir = true → r.isPgdir = true) ∧
      (r.isPgdir = false → mapIsSecure q = .ok true → mapIsSecure r = .ok true) := by
  have hrun : ∃ map, beforePlacing (libcCfg 0x4E000000 0x100000) smallTable = .ok map := ⟨_, rfl⟩
  have htypes : ∀ r ∈ smallTable, (coreMmuTypeToAttr r.type).toOption.isSome = true := by decide
  obtain ⟨map, h⟩ := hrun
  refine ⟨map, h, beforePlacing_order h (fun r hr => ?_) (by decide)⟩
  have hsome := htypes r hr
  cases hattr : coreMmuTypeToAttr r.type with
  | ok attr => exact ⟨attr, rfl⟩
  | error e =>
    rw [hattr] at hsome
    cases hsome

end Order

end SeCloak
