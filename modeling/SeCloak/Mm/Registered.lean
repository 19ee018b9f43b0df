import Mathlib.Algebra.Group.Nat.Defs
import Mathlib.Data.List.Induction
import SeCloak.Mm.MemMap

/-!
# What the memory map covers (`core_mmu.c:282-332`)

The table is sorted, entries of one type are apart, and they cover exactly what was registered, as
long as no registration is coalesced wrongly (`registered_iff`): the new end of an entry is computed
from the larger of the two sizes, and only the first entry that overlaps is coalesced.
-/

namespace SeCloak
open Misc

/-! ## Ranges -/

def PhysMem.span (m : PhysMem) : Span := ⟨m.addr.toNat, m.addr.toNat + m.size.toNat⟩

/-- Not empty, and inside the address space. -/
def PhysMem.Whole (m : PhysMem) : Prop := 0 < m.size.toNat ∧ m.span.hi ≤ 2 ^ 32

instance (m : PhysMem) : Decidable m.Whole := inferInstanceAs (Decidable (_ ∧ _))

def MmapRegion.Whole (r : MmapRegion) : Prop := 0 < r.size.toNat ∧ r.pspan.hi ≤ 2 ^ 32

section Ranges

variable {r : MmapRegion} {m : PhysMem}

theorem toNat_last {a s : Word} (hpos : 0 < s.toNat) (hhi : a.toNat + s.toNat ≤ 2 ^ 32) :
    (a + (s - 1)).toNat = a.toNat + s.toNat - 1 := by
  have hone : (1 : Word).toNat = 1 := rfl
  have hle : (1 : Word) ≤ s := by
    rw [BitVec.le_def, hone]
    exact hpos
  rw [BitVec.toNat_add, BitVec.toNat_sub_of_le hle, hone, Nat.mod_eq_of_lt (by omega)]
  omega

theorem MmapRegion.Whole.lo_lt (hr : r.Whole) : r.pspan.lo < r.pspan.hi := by
  have hpos := hr.1
  change r.pa.toNat < r.pa.toNat + r.size.toNat
  omega

theorem PhysMem.Whole.lo_lt (hm : m.Whole) : m.span.lo < m.span.hi := by
  have hpos := hm.1
  change m.addr.toNat < m.addr.toNat + m.size.toNat
  omega

theorem overlaps_iff (hr : r.Whole) (hm : m.Whole) :
    r.overlaps m ↔ m.type = r.type ∧ ¬ r.pspan.Apart m.span := by
  unfold MmapRegion.overlaps
  rw [Span.apart_iff hr.lo_lt hm.lo_lt]
  simp only [BitVec.le_def, toNat_last hr.1 hr.2, toNat_last hm.1 hm.2]
  have hr1 := hr.1
  have hm1 := hm.1
  change _ ∧ _ ↔ _ ∧ ¬ (r.pa.toNat + r.size.toNat ≤ m.addr.toNat ∨
    m.addr.toNat + m.size.toNat ≤ r.pa.toNat)
  constructor
  · rintro ⟨htype, hover⟩
    exact ⟨htype, by omega⟩
  · rintro ⟨htype, hover⟩
    exact ⟨htype, by omega⟩

end Ranges

/-! ## One registration -/

/-- Where the memory goes: into the first entry that overlaps it, or before the first entry that
comes after it. -/
theorem addPhysMemFrom_cases {numElems n : Nat} {m : PhysMem} {rest : List MmapRegion}
    (hroom : n + rest.length < numElems - 1) :
    ∃ front back, (∀ q ∈ front, ¬ q.overlaps m ∧ ¬ m.before q) ∧
      ((∃ r, rest = front ++ r :: back ∧ r.overlaps m ∧
          addPhysMemFrom numElems m n rest = .ok (front ++ r.coalesce m :: back)) ∨
        (rest = front ++ back ∧ (∀ q ∈ back.head?, m.before q ∧ ¬ q.overlaps m) ∧
          addPhysMemFrom numElems m n rest = .ok (front ++ m.region :: back))) := by
  induction rest generalizing n with
  | nil =>
    have hn : ¬ numElems - 1 ≤ n := by
      rw [List.length_nil] at hroom
      omega
    refine ⟨[], [], fun q hq => absurd hq List.not_mem_nil, Or.inr ⟨rfl, ?_, ?_⟩⟩
    · intro q hq
      cases hq
    · rw [addPhysMemFrom, if_neg hn]
      rfl
  | cons r rs ih =>
    rw [List.length_cons] at hroom
    have hn : ¬ numElems - 1 ≤ n := by omega
    by_cases hover : r.overlaps m
    · refine ⟨[], rs, fun q hq => absurd hq List.not_mem_nil, Or.inl ⟨r, rfl, hover, ?_⟩⟩
      rw [addPhysMemFrom, if_neg hn, if_pos hover]
      rfl
    by_cases hbefore : m.before r
    · refine ⟨[], r :: rs, fun q hq => absurd hq List.not_mem_nil, Or.inr ⟨rfl, ?_, ?_⟩⟩
      · intro q hq
        obtain rfl := Option.some.inj hq
        exact ⟨hbefore, hover⟩
      · rw [addPhysMemFrom, if_neg hn, if_neg hover, if_pos hbefore]
        rfl
    obtain ⟨front, back, hfront, hcases⟩ := @ih (n + 1) (by omega)
    have hstep : ∀ map, addPhysMemFrom numElems m (n + 1) rs = .ok map →
        addPhysMemFrom numElems m n (r :: rs) = .ok (r :: map) := by
      intro map hmap
      rw [addPhysMemFrom, if_neg hn, if_neg hover, if_neg hbefore, hmap]
      rfl
    refine ⟨r :: front, back, ?_, ?_⟩
    · intro q hq
      rcases List.mem_cons.mp hq with rfl | hq
      · exact ⟨hover, hbefore⟩
      · exact hfront q hq
    · rcases hcases with ⟨r', rfl, hover', hmap⟩ | ⟨rfl, hhead, hmap⟩
      · exact Or.inl ⟨r', rfl, hover', hstep _ hmap⟩
      · exact Or.inr ⟨rfl, hhead, hstep _ hmap⟩

/-! ## The table -/

/-- Some entry of the type has the address. -/
def Covers (map : List MmapRegion) (t : MemType) (x : Nat) : Prop :=
  ∃ r ∈ map, r.type = t ∧ r.pspan.Has x

/-- Some registration of the type has the address. -/
def Asked (ms : List PhysMem) (t : MemType) (x : Nat) : Prop := ∃ m ∈ ms, m.type = t ∧ m.span.Has x

/-- The table is sorted by type and physical address, entries of the same type are apart, and each
type covers what was registered for it. -/
structure Registered (ms : List PhysMem) (map : List MmapRegion) : Prop where
  sorted : map.Pairwise fun r q => r.type.val < q.type.val ∨ (r.type = q.type ∧ r.pa ≤ q.pa)
  apart : map.Pairwise fun r q => r.type = q.type → r.pspan.Apart q.pspan
  covers : ∀ t x, Covers map t x ↔ Asked ms t x

/-- An entry comes before another and ends before it if they have the same type. -/
def MmapRegion.Ordered (r q : MmapRegion) : Prop :=
  r.type.val < q.type.val ∨ (r.type = q.type ∧ r.pspan.hi ≤ q.pspan.lo)

section Table

variable {m : PhysMem} {ms : List PhysMem} {map front back : List MmapRegion} {r q x : MmapRegion}
  {t : MemType} {y : Nat}

theorem MmapRegion.Ordered.trans (h : r.Ordered q) (h' : q.Ordered x) : r.Ordered x := by
  have hq : q.pspan.lo ≤ q.pspan.hi := Nat.le_add_right _ _
  rcases h with h | ⟨htype, h⟩
  · rcases h' with h' | ⟨htype', -⟩
    · exact Or.inl (Nat.lt_trans h h')
    · rw [htype'] at h
      exact Or.inl h
  · rcases h' with h' | ⟨htype', h'⟩
    · rw [← htype] at h'
      exact Or.inl h'
    · exact Or.inr ⟨htype.trans htype', Nat.le_trans h (Nat.le_trans hq h')⟩

theorem MmapRegion.Ordered.sorted (h : r.Ordered q) :
    r.type.val < q.type.val ∨ (r.type = q.type ∧ r.pa ≤ q.pa) := by
  refine h.imp_right fun ⟨htype, hle⟩ => ⟨htype, ?_⟩
  rw [BitVec.le_def]
  exact Nat.le_trans (Nat.le_add_right _ _) hle

theorem MmapRegion.Ordered.apart (h : r.Ordered q) (htype : r.type = q.type) :
    r.pspan.Apart q.pspan := by
  rcases h with h | ⟨-, hle⟩
  · rw [htype] at h
    exact absurd h (Nat.lt_irrefl _)
  · exact Span.apart_of_le hle

theorem Registered.ordered (h : Registered ms map) (hwhole : ∀ r ∈ map, r.Whole) :
    map.Pairwise MmapRegion.Ordered := by
  have hboth := h.sorted.and h.apart
  refine hboth.imp_of_mem fun {r q} _ hq hrq => ?_
  obtain ⟨hlt | ⟨htype, hle⟩, hapart⟩ := hrq
  · exact Or.inl hlt
  · exact Or.inr ⟨htype, (hapart htype).le (hwhole q hq).lo_lt hle⟩

theorem registered_of_ordered (h : map.Pairwise MmapRegion.Ordered)
    (hcovers : ∀ t x, Covers map t x ↔ Asked ms t x) : Registered ms map :=
  ⟨h.imp MmapRegion.Ordered.sorted, h.imp MmapRegion.Ordered.apart, hcovers⟩

theorem covers_split : Covers (front ++ x :: back) t y ↔
    Covers front t y ∨ (x.type = t ∧ x.pspan.Has y) ∨ Covers back t y := by
  unfold Covers
  simp only [List.mem_append, List.mem_cons, or_and_right, exists_or, exists_eq_left]

theorem covers_append : Covers (front ++ back) t y ↔ Covers front t y ∨ Covers back t y := by
  unfold Covers
  simp only [List.mem_append, or_and_right, exists_or]

theorem asked_snoc : Asked (ms ++ [m]) t y ↔ Asked ms t y ∨ (m.type = t ∧ m.span.Has y) := by
  unfold Asked
  simp only [List.mem_append, List.mem_singleton, or_and_right, exists_or, exists_eq_left]

/-- An entry that the loop passed ends before the new memory. -/
theorem ordered_front (hq : q.Whole) (hm : m.Whole) (hover : ¬ q.overlaps m)
    (hbefore : ¬ m.before q) : q.Ordered m.region := by
  obtain ⟨hval, hlo⟩ := not_or.mp hbefore
  rcases Nat.lt_or_ge q.type.val m.type.val with hlt | hge
  · exact Or.inl hlt
  · have htype : m.type = q.type := MemType.val_inj.mp (by omega)
    have hapart : q.pspan.Apart m.span := by
      by_contra hmeet
      exact hover ((overlaps_iff hq hm).mpr ⟨htype, hmeet⟩)
    refine Or.inr ⟨htype.symm, hapart.le hm.lo_lt ?_⟩
    have hle : ¬ m.addr < q.pa := fun hlt => hlo ⟨htype, hlt⟩
    exact BitVec.not_lt.mp hle

/-- The new memory ends before the entry that it is inserted before. -/
theorem ordered_head (hq : q.Whole) (hm : m.Whole) (hover : ¬ q.overlaps m) (hbefore : m.before q) :
    m.region.Ordered q := by
  refine hbefore.imp_right fun ⟨htype, hlt⟩ => ⟨htype, ?_⟩
  have hapart : q.pspan.Apart m.span := by
    by_contra hmeet
    exact hover ((overlaps_iff hq hm).mpr ⟨htype, hmeet⟩)
  exact hapart.symm.le hq.lo_lt (Nat.le_of_lt hlt)

theorem ordered_back (hwhole : ∀ q ∈ back, q.Whole) (hm : m.Whole)
    (hback : back.Pairwise MmapRegion.Ordered)
    (hhead : ∀ q ∈ back.head?, m.before q ∧ ¬ q.overlaps m) :
    ∀ q ∈ back, m.region.Ordered q := by
  cases back with
  | nil =>
    intro q hq
    cases hq
  | cons b bs =>
    obtain ⟨hbefore, hover⟩ := hhead b rfl
    have hb := ordered_head (hwhole b List.mem_cons_self) hm hover hbefore
    intro q hq
    rcases List.mem_cons.mp hq with rfl | hq
    · exact hb
    · exact hb.trans ((List.pairwise_cons.mp hback).1 q hq)

/-- An insertion keeps the table right. -/
theorem registered_insert (h : Registered ms (front ++ back))
    (hwhole : ∀ r ∈ front ++ back, r.Whole) (hm : m.Whole)
    (hfront : ∀ q ∈ front, ¬ q.overlaps m ∧ ¬ m.before q)
    (hhead : ∀ q ∈ back.head?, m.before q ∧ ¬ q.overlaps m) :
    Registered (ms ++ [m]) (front ++ m.region :: back) ∧
      ∀ q ∈ front ++ back, ¬ q.overlaps m := by
  obtain ⟨hf, hb, hfb⟩ := List.pairwise_append.mp (h.ordered hwhole)
  have hbwhole : ∀ q ∈ back, q.Whole := fun q hq => hwhole q (List.mem_append_right _ hq)
  have hbm := ordered_back hbwhole hm hb hhead
  have hfm : ∀ q ∈ front, q.Ordered m.region := by
    intro q hq
    obtain ⟨hover, hbefore⟩ := hfront q hq
    exact ordered_front (hwhole q (List.mem_append_left _ hq)) hm hover hbefore
  refine ⟨registered_of_ordered ?_ fun t y => ?_, fun q hq => ?_⟩
  · refine List.pairwise_append.mpr ⟨hf, List.pairwise_cons.mpr ⟨hbm, hb⟩, ?_⟩
    intro q hq q' hq'
    rcases List.mem_cons.mp hq' with rfl | hq'
    · exact hfm q hq
    · exact hfb q hq q' hq'
  · rw [covers_split, asked_snoc, ← h.covers, covers_append]
    change _ ∨ (m.type = t ∧ m.span.Has y) ∨ _ ↔ _
    tauto
  · rcases List.mem_append.mp hq with hq | hq
    · exact (hfront q hq).1
    · rw [overlaps_iff (hbwhole q hq) hm]
      rintro ⟨htype, hmeet⟩
      exact hmeet ((hbm q hq).apart htype).symm

end Table

/-! ## Coalescing -/

/-- Where the entry ends after it is coalesced: its own start and the larger of the two sizes. -/
def coalescedEnd (r : MmapRegion) (m : PhysMem) : Nat := r.pspan.lo + max r.size.toNat m.size.toNat

/-- The end that is computed is right: the entry is shorter than 4 GiB and does not reach beyond the
two ranges or into a later entry of the type, and later entries have what it misses. -/
structure Coalesces (map : List MmapRegion) (r : MmapRegion) (m : PhysMem) : Prop where
  short : coalescedEnd r m - min r.pspan.lo m.span.lo < 2 ^ 32
  stays : coalescedEnd r m ≤ max r.pspan.hi m.span.hi
  apart : ∀ q ∈ map, q.type = m.type → r.pspan.lo < q.pspan.lo → coalescedEnd r m ≤ q.pspan.lo
  reaches : ∀ y, coalescedEnd r m ≤ y → m.span.Has y →
    ∃ q ∈ map, q.type = m.type ∧ r.pspan.lo < q.pspan.lo ∧ q.pspan.Has y

/-- The memory overlaps no entry of its type, or is coalesced rightly with the first that it
overlaps. -/
def Fits (map : List MmapRegion) (m : PhysMem) : Prop :=
  ∀ r, map.find? (fun r => r.overlaps m) = some r → Coalesces map r m

section Coalesce

variable {m : PhysMem} {ms : List PhysMem} {map front back : List MmapRegion} {r q : MmapRegion}
  {t : MemType} {y : Nat}

theorem coalesce_lo (r : MmapRegion) (m : PhysMem) :
    (r.coalesce m).pspan.lo = min r.pspan.lo m.span.lo :=
  toNat_wordMin r.pa m.addr

theorem coalesce_hi (r : MmapRegion) (m : PhysMem) : (r.coalesce m).pspan.hi =
    min r.pspan.lo m.span.lo + (coalescedEnd r m - min r.pspan.lo m.span.lo) % 2 ^ 32 := by
  have hmin : (wordMin r.pa m.addr).toNat = min r.pa.toNat m.addr.toNat := toNat_wordMin _ _
  have hle : wordMin r.pa m.addr ≤ r.pa := by
    rw [BitVec.le_def, hmin]
    exact Nat.min_le_left _ _
  have hsize : (r.coalesce m).size.toNat =
      (coalescedEnd r m - min r.pspan.lo m.span.lo) % 2 ^ 32 := by
    change (wordMax r.size m.size + (r.pa - wordMin r.pa m.addr)).toNat = _
    rw [BitVec.toNat_add, BitVec.toNat_sub_of_le hle, toNat_wordMax, hmin]
    congr 1
    change _ = r.pa.toNat + max r.size.toNat m.size.toNat - min r.pa.toNat m.addr.toNat
    omega
  change (wordMin r.pa m.addr).toNat + (r.coalesce m).size.toNat = _
  rw [hmin, hsize]
  rfl

/-- An entry of the type that starts after `r` is behind it in the table. -/
theorem mem_back (h : (front ++ r :: back).Pairwise MmapRegion.Ordered)
    (hq : q ∈ front ++ r :: back) (htype : q.type = r.type) (hlo : r.pspan.lo < q.pspan.lo) :
    q ∈ back := by
  rcases List.mem_append.mp hq with hq | hq
  · rcases (List.pairwise_append.mp h).2.2 q hq r List.mem_cons_self with hlt | ⟨-, hle⟩
    · rw [htype] at hlt
      exact absurd hlt (Nat.lt_irrefl _)
    · have hqlo : q.pspan.lo ≤ q.pspan.hi := Nat.le_add_right _ _
      omega
  · rcases List.mem_cons.mp hq with rfl | hq
    · exact absurd hlo (Nat.lt_irrefl _)
    · exact hq

theorem Coalesces.span (h : Coalesces map r m) :
    (r.coalesce m).pspan = ⟨min r.pspan.lo m.span.lo, coalescedEnd r m⟩ := by
  have hlo : (r.coalesce m).pspan.lo = _ := coalesce_lo r m
  have hhi := coalesce_hi r m
  rw [Nat.mod_eq_of_lt h.short] at hhi
  have hend : r.pspan.lo ≤ coalescedEnd r m := Nat.le_add_right _ _
  have hspan : ∀ sp : Span, sp = ⟨sp.lo, sp.hi⟩ := fun _ => rfl
  rw [hspan (r.coalesce m).pspan, hlo, hhi]
  congr 1
  omega

theorem Coalesces.whole (h : Coalesces map r m) (hr : r.Whole) (hm : m.Whole) :
    (r.coalesce m).Whole := by
  have hlo := congrArg Span.lo h.span
  have hhi := congrArg Span.hi h.span
  have hstays := h.stays
  have hr1 := hr.1
  have hr2 := hr.2
  have hm2 := hm.2
  have hend : coalescedEnd r m = r.pspan.lo + max r.size.toNat m.size.toNat := rfl
  have hsize : (r.coalesce m).pspan.hi = (r.coalesce m).pspan.lo + (r.coalesce m).size.toNat := rfl
  dsimp only at hlo hhi
  refine ⟨by omega, ?_⟩
  rw [hhi]
  omega

/-- What is left of the table when the memory overlaps the entry `r`. -/
structure Meets (ms : List PhysMem) (front back : List MmapRegion) (r : MmapRegion) (m : PhysMem) :
    Prop where
  registered : Registered ms (front ++ r :: back)
  whole : ∀ q ∈ front ++ r :: back, q.Whole
  mem : m.Whole
  type : m.type = r.type
  meet : ¬ r.pspan.Apart m.span
  front_r : ∀ q ∈ front, q.Ordered r
  front_m : ∀ q ∈ front, q.Ordered m.region
  back_r : ∀ q ∈ back, r.Ordered q

namespace Meets

variable (h : Meets ms front back r m)

include h

theorem r_whole : r.Whole := h.whole r (List.mem_append_right _ List.mem_cons_self)

/-- Entries of the type before `r` end before both ranges, those behind it start after `r`. -/
theorem front_le (hq : q ∈ front) (hqt : q.type = r.type) :
    q.pspan.hi ≤ r.pspan.lo ∧ q.pspan.hi ≤ m.span.lo := by
  constructor
  · rcases h.front_r q hq with hlt | ⟨-, hle⟩
    · rw [hqt] at hlt
      exact absurd hlt (Nat.lt_irrefl _)
    · exact hle
  · rcases h.front_m q hq with hlt | ⟨-, hle⟩
    · rw [hqt, ← h.type] at hlt
      exact absurd hlt (Nat.lt_irrefl _)
    · exact hle

theorem back_le (hq : q ∈ back) (hqt : q.type = r.type) : r.pspan.hi ≤ q.pspan.lo := by
  rcases h.back_r q hq with hlt | ⟨-, hle⟩
  · rw [hqt] at hlt
    exact absurd hlt (Nat.lt_irrefl _)
  · exact hle

/-- A coalesced table has what is wanted exactly if this holds at every address. -/
theorem covers_iff : (∀ t y, Covers (front ++ r.coalesce m :: back) t y ↔ Asked (ms ++ [m]) t y) ↔
    ∀ y, (Covers front r.type y ∨ (r.coalesce m).pspan.Has y ∨ Covers back r.type y) ↔
      (Covers front r.type y ∨ r.pspan.Has y ∨ Covers back r.type y) ∨ m.span.Has y := by
  have hold := h.registered.covers
  constructor
  · intro hnew y
    have hy := hnew r.type y
    rw [covers_split, asked_snoc, ← hold, covers_split] at hy
    have hmt := h.type
    have hct : (r.coalesce m).type = r.type := rfl
    simp only [hmt, hct, true_and] at hy
    exact hy
  · intro hall t y
    rw [covers_split, asked_snoc, ← hold, covers_split]
    have hct : (r.coalesce m).type = r.type := rfl
    rw [h.type, hct]
    by_cases ht : r.type = t
    · subst ht
      simp only [true_and]
      exact hall y
    · simp [ht]

theorem registered_of_coalesces (hc : Coalesces (front ++ r :: back) r m) :
    Registered (ms ++ [m]) (front ++ r.coalesce m :: back) := by
  have hlo := congrArg Span.lo hc.span
  have hhi := congrArg Span.hi hc.span
  dsimp only at hlo hhi
  obtain ⟨hf, hb, hfb⟩ := List.pairwise_append.mp (h.registered.ordered h.whole)
  have hb' := (List.pairwise_cons.mp hb).2
  refine registered_of_ordered ?_ (h.covers_iff.mpr fun y => ?_)
  · have hfc : ∀ q ∈ front, q.Ordered (r.coalesce m) := by
      intro q hq
      refine (h.front_r q hq).imp_right fun ⟨htype, _⟩ => ⟨htype, ?_⟩
      obtain ⟨hr, hm⟩ := h.front_le hq htype
      rw [hlo]
      exact Nat.le_min.mpr ⟨hr, hm⟩
    have hcb : ∀ q ∈ back, (r.coalesce m).Ordered q := by
      intro q hq
      refine (h.back_r q hq).imp_right fun ⟨htype, hle⟩ => ⟨htype, ?_⟩
      have hmem : q ∈ front ++ r :: back :=
        List.mem_append_right _ (List.mem_cons_of_mem _ hq)
      rw [hhi]
      exact hc.apart q hmem (htype.symm.trans h.type.symm) (Nat.lt_of_lt_of_le h.r_whole.lo_lt hle)
    refine List.pairwise_append.mpr ⟨hf, List.pairwise_cons.mpr ⟨hcb, hb'⟩, ?_⟩
    intro q hq q' hq'
    rcases List.mem_cons.mp hq' with rfl | hq'
    · exact hfc q hq
    · exact hfb q hq q' (List.mem_cons_of_mem _ hq')
  · have hcr : ∀ y, r.pspan.Has y → (r.coalesce m).pspan.Has y := by
      intro y ⟨hle, hlt⟩
      have hrhi : r.pspan.hi ≤ coalescedEnd r m :=
        Nat.add_le_add_left (Nat.le_max_left _ _) _
      exact ⟨by omega, by omega⟩
    constructor
    · rintro (hy | ⟨hle, hlt⟩ | hy)
      · exact Or.inl (Or.inl hy)
      · rw [hlo] at hle
        rw [hhi] at hlt
        rcases Span.has_or_has h.meet hle (Nat.lt_of_lt_of_le hlt hc.stays) with hy | hy
        · exact Or.inl (Or.inr (Or.inl hy))
        · exact Or.inr hy
      · exact Or.inl (Or.inr (Or.inr hy))
    · rintro ((hy | hy | hy) | hy)
      · exact Or.inl hy
      · exact Or.inr (Or.inl (hcr y hy))
      · exact Or.inr (Or.inr hy)
      · rcases Nat.lt_or_ge y (coalescedEnd r m) with hlt | hge
        · refine Or.inr (Or.inl ⟨?_, by rw [hhi]; exact hlt⟩)
          rw [hlo]
          exact Nat.le_trans (Nat.min_le_right _ _) hy.1
        · obtain ⟨q, hq, hqt, hqlo, hqy⟩ := hc.reaches y hge hy
          rw [h.type] at hqt
          have hback := mem_back (h.registered.ordered h.whole) hq hqt hqlo
          exact Or.inr (Or.inr ⟨q, hback, hqt, hqy⟩)

theorem coalesces_of_registered (hnew : Registered (ms ++ [m]) (front ++ r.coalesce m :: back)) :
    Coalesces (front ++ r :: back) r m := by
  have hcov := h.covers_iff.mp hnew.covers
  have hlo := coalesce_lo r m
  have hhi := coalesce_hi r m
  have hrlo := h.r_whole.lo_lt
  have hend : coalescedEnd r m = r.pspan.lo + max r.size.toNat m.size.toNat := rfl
  have hrhi : r.pspan.hi = r.pspan.lo + r.size.toNat := rfl
  have hmhi : m.span.hi = m.span.lo + m.size.toNat := rfl
  obtain ⟨-, hcb, hfc⟩ := List.pairwise_append.mp hnew.apart
  have hbapart : ∀ q ∈ back, q.type = r.type → (r.coalesce m).pspan.Apart q.pspan :=
    fun q hq hqt => (List.pairwise_cons.mp hcb).1 q hq hqt.symm
  have hfapart : ∀ q ∈ front, q.type = r.type → q.pspan.Apart (r.coalesce m).pspan :=
    fun q hq hqt => hfc q hq _ List.mem_cons_self hqt
  -- a size that wraps around loses the start of the old entry
  have hshort : coalescedEnd r m - min r.pspan.lo m.span.lo < 2 ^ 32 := by
    by_contra hlong
    have hrz := r.size.isLt
    have hmz := m.size.isLt
    have hold : r.pspan.Has r.pspan.lo := Span.has_lo hrlo
    rcases (hcov r.pspan.lo).mpr (Or.inl (Or.inr (Or.inl hold))) with ⟨q, hq, hqt, hqy⟩ | hy | ⟨q, hq, hqt, hqy⟩
    · have hle := (h.front_le hq hqt).1
      have hlt := hqy.2
      omega
    · have hlt := hy.2
      rw [hhi] at hlt
      omega
    · have hle := h.back_le hq hqt
      have hge := hqy.1
      omega
  rw [Nat.mod_eq_of_lt hshort] at hhi
  have hhi' : (r.coalesce m).pspan.hi = coalescedEnd r m := by omega
  have hno : ∀ y, (r.coalesce m).pspan.Has y →
      ¬ (Covers front r.type y ∨ Covers back r.type y) := by
    rintro y hy (⟨q, hq, hqt, hqy⟩ | ⟨q, hq, hqt, hqy⟩)
    · exact hfapart q hq hqt y hqy hy
    · exact hbapart q hq hqt y hy hqy
  refine ⟨hshort, ?_, ?_, ?_⟩
  · by_contra hlt
    have hy : (r.coalesce m).pspan.Has (coalescedEnd r m - 1) := ⟨by omega, by omega⟩
    rcases (hcov _).mp (Or.inr (Or.inl hy)) with (hq | hr | hq) | hm
    · exact hno _ hy (Or.inl hq)
    · have hr2 := hr.2
      omega
    · exact hno _ hy (Or.inr hq)
    · have hm2 := hm.2
      omega
  · intro q hq hqt hqlo
    rw [h.type] at hqt
    have hback := mem_back (h.registered.ordered h.whole) hq hqt hqlo
    have hqwhole := (h.whole q hq).lo_lt
    by_contra hlt
    have hy : (r.coalesce m).pspan.Has q.pspan.lo := ⟨by omega, by omega⟩
    exact hno _ hy (Or.inr ⟨q, hback, hqt, Span.has_lo hqwhole⟩)
  · intro y hge hy
    rcases (hcov y).mpr (Or.inr hy) with ⟨q, hq, hqt, hqy⟩ | hc | ⟨q, hq, hqt, hqy⟩
    · have hle := (h.front_le hq hqt).2
      have hq2 := hqy.2
      have hy1 := hy.1
      omega
    · have hc2 := hc.2
      omega
    · have hle := h.back_le hq hqt
      have hmem : q ∈ front ++ r :: back := List.mem_append_right _ (List.mem_cons_of_mem _ hq)
      exact ⟨q, hmem, hqt.trans h.type.symm, by omega, hqy⟩

end Meets

end Coalesce

/-! ## Registrations -/

/-- One registration in a right table: no panic, and a right table exactly if it fits. -/
theorem addPhysMem_iff {numElems : Nat} {m : PhysMem} {ms : List PhysMem} {map : List MmapRegion}
    (hroom : map.length < numElems - 1) (h : Registered ms map) (hwhole : ∀ r ∈ map, r.Whole)
    (hm : m.Whole) : ∃ map', addPhysMem numElems m map = .ok map' ∧ map'.length ≤ map.length + 1 ∧
      (Registered (ms ++ [m]) map' ↔ Fits map m) ∧ (Fits map m → ∀ r ∈ map', r.Whole) := by
  obtain ⟨front, back, hfront, ⟨r, rfl, hover, hadd⟩ | ⟨rfl, hhead, hadd⟩⟩ :=
    @addPhysMemFrom_cases numElems 0 m map (by omega)
  · have hr : r.Whole := hwhole r (List.mem_append_right _ List.mem_cons_self)
    obtain ⟨htype, hmeet⟩ := (overlaps_iff hr hm).mp hover
    obtain ⟨-, hb, hfb⟩ := List.pairwise_append.mp (h.ordered hwhole)
    have hmeets : Meets ms front back r m := by
      refine ⟨h, hwhole, hm, htype, hmeet, ?_, ?_, (List.pairwise_cons.mp hb).1⟩
      · exact fun q hq => hfb q hq r List.mem_cons_self
      · exact fun q hq => ordered_front (hwhole q (List.mem_append_left _ hq)) hm (hfront q hq).1
          (hfront q hq).2
    have hfind : (front ++ r :: back).find? (fun q => q.overlaps m) = some r := by
      have hnone : front.find? (fun q => q.overlaps m) = none := by
        rw [List.find?_eq_none]
        intro q hq
        simpa using (hfront q hq).1
      rw [List.find?_append, hnone, Option.none_or, List.find?_cons_of_pos]
      exact decide_eq_true hover
    have hfits : Fits (front ++ r :: back) m ↔ Coalesces (front ++ r :: back) r m := by
      unfold Fits
      rw [hfind]
      constructor
      · exact fun hall => hall r rfl
      · rintro hc q hq
        obtain rfl := Option.some.inj hq
        exact hc
    refine ⟨_, hadd, ?_, ?_, ?_⟩
    · simp only [List.length_append, List.length_cons]
      omega
    · rw [hfits]
      exact ⟨hmeets.coalesces_of_registered, hmeets.registered_of_coalesces⟩
    · intro hf q hq
      rcases List.mem_append.mp hq with hq | hq
      · exact hwhole q (List.mem_append_left _ hq)
      · rcases List.mem_cons.mp hq with rfl | hq
        · exact (hfits.mp hf).whole hr hm
        · exact hwhole q (List.mem_append_right _ (List.mem_cons_of_mem _ hq))
  · obtain ⟨hreg, hno⟩ := registered_insert h hwhole hm hfront hhead
    have hfits : Fits (front ++ back) m := by
      intro r hr
      have hover := @List.find?_some _ (fun q : MmapRegion => decide (q.overlaps m)) _ _ hr
      exact absurd (of_decide_eq_true hover) (hno r (List.mem_of_find?_eq_some hr))
    refine ⟨_, hadd, ?_, ⟨fun _ => hfits, fun _ => hreg⟩, fun _ q hq => ?_⟩
    · simp only [List.length_append, List.length_cons]
      omega
    · rcases List.mem_append.mp hq with hq | hq
      · exact hwhole q (List.mem_append_left _ hq)
      · rcases List.mem_cons.mp hq with rfl | hq
        · exact hm
        · exact hwhole q (List.mem_append_right _ hq)

/-- The table after some registrations is right. -/
structure RightAfter (numElems : Nat) (ms : List PhysMem) (map : List MmapRegion) : Prop where
  run : registerAll numElems ms = .ok map
  registered : Registered ms map
  whole : ∀ r ∈ map, r.Whole
  length : map.length ≤ ms.length

theorem rightAfter_nil (numElems : Nat) : RightAfter numElems [] [] := by
  refine ⟨rfl, ⟨List.Pairwise.nil, List.Pairwise.nil, fun t x => ?_⟩, ?_, Nat.le_refl _⟩
  · simp [Covers, Asked]
  · intro r hr
    cases hr

theorem RightAfter.step {numElems : Nat} {ms : List PhysMem} {m : PhysMem} {map : List MmapRegion}
    (h : RightAfter numElems ms map) (hm : m.Whole) (hroom : (ms ++ [m]).length < numElems) :
    ∃ map', registerAll numElems (ms ++ [m]) = .ok map' ∧
      (Registered (ms ++ [m]) map' ↔ Fits map m) ∧
      (Fits map m → RightAfter numElems (ms ++ [m]) map') := by
  have hlen := h.length
  rw [List.length_append, List.length_singleton] at hroom
  obtain ⟨map', hadd, hlen', hiff, hwhole⟩ :=
    @addPhysMem_iff numElems m ms map (by omega) h.registered h.whole hm
  have hrun : registerAll numElems (ms ++ [m]) = .ok map' := by
    have hms := h.run
    unfold registerAll at hms ⊢
    rw [List.foldlM_append, hms]
    change (addPhysMem numElems m map >>= fun map => pure map) = .ok map'
    rw [hadd]
    rfl
  refine ⟨map', hrun, hiff, fun hfits => ⟨hrun, hiff.mpr hfits, hwhole hfits, ?_⟩⟩
  rw [List.length_append, List.length_singleton]
  omega

/-- In every sequence of registrations the table stays sorted, apart and complete after each of them,
exactly if each registration fits into the table it meets. -/
theorem registered_iff {numElems : Nat} {ms : List PhysMem} (hm : ∀ m ∈ ms, m.Whole)
    (hroom : ms.length < numElems) :
    (∀ front, front <+: ms → ∃ map, registerAll numElems front = .ok map ∧ Registered front map) ↔
      ∀ front m, front ++ [m] <+: ms → ∀ map, registerAll numElems front = .ok map → Fits map m := by
  have hstep : ∀ {front m map}, front ++ [m] <+: ms → RightAfter numElems front map →
      ∃ map', registerAll numElems (front ++ [m]) = .ok map' ∧
        (Registered (front ++ [m]) map' ↔ Fits map m) ∧
        (Fits map m → RightAfter numElems (front ++ [m]) map') := by
    intro front m map hpre hright
    refine hright.step (hm m (hpre.subset (by simp))) ?_
    exact Nat.lt_of_le_of_lt hpre.length_le hroom
  -- if every registration so far fitted, the table is right after it
  have hright : (∀ front m map, front ++ [m] <+: ms → RightAfter numElems front map → Fits map m) →
      ∀ front, front <+: ms → ∃ map, RightAfter numElems front map := by
    intro hfits front
    induction front using List.reverseRecOn with
    | nil => exact fun _ => ⟨[], rightAfter_nil numElems⟩
    | append_singleton front m ih =>
      intro hpre
      obtain ⟨map, hmap⟩ := ih ((List.prefix_append front [m]).trans hpre)
      obtain ⟨map', -, -, hnext⟩ := hstep hpre hmap
      exact ⟨map', hnext (hfits front m map hpre hmap)⟩
  constructor
  · intro hall
    have hfits : ∀ front m map, front ++ [m] <+: ms → RightAfter numElems front map →
        Fits map m := by
      intro front m map hpre hmap
      obtain ⟨map', hrun, hiff, -⟩ := hstep hpre hmap
      obtain ⟨map'', hrun', hreg⟩ := hall _ hpre
      rw [hrun] at hrun'
      obtain rfl := Except.ok.inj hrun'
      exact hiff.mp hreg
    intro front m hpre map hrun
    obtain ⟨map', hmap⟩ := hright hfits front ((List.prefix_append front [m]).trans hpre)
    rw [hmap.run] at hrun
    obtain rfl := Except.ok.inj hrun
    exact hfits front m _ hpre hmap
  · intro hfits front hpre
    obtain ⟨map, hmap⟩ := hright (fun front m map hpre hmap => hfits front m hpre map hmap.run) front hpre
    exact ⟨map, hmap.run, hmap.registered⟩

/-- Two regions of I/O memory that are apart. -/
theorem registered_iff_apart :
    (∀ m ∈ [PhysMem.mk .ioSec 0x02000000 0x100000, ⟨.ioSec, 0x00A00000, 0x100000⟩], m.Whole) ∧
      ((∀ front, front <+: [PhysMem.mk .ioSec 0x02000000 0x100000, ⟨.ioSec, 0x00A00000, 0x100000⟩] →
          ∃ map, registerAll 14 front = .ok map ∧ Registered front map) ↔
        ∀ front m, front ++ [m] <+:
            [PhysMem.mk .ioSec 0x02000000 0x100000, ⟨.ioSec, 0x00A00000, 0x100000⟩] →
          ∀ map, registerAll 14 front = .ok map → Fits map m) :=
  ⟨by decide, registered_iff (by decide) (by decide)⟩

/-- The second half of a region that overlaps an earlier one is lost. -/
theorem registration_lost :
    ∃ map, registerAll 14 [⟨.ramNsec, 0x10000000, 0x200000⟩, ⟨.ramNsec, 0x10100000, 0x200000⟩] =
        .ok map ∧
      Asked [⟨.ramNsec, 0x10000000, 0x200000⟩, ⟨.ramNsec, 0x10100000, 0x200000⟩] .ramNsec 0x10200000 ∧
      ¬ Covers map .ramNsec 0x10200000 := by
  refine ⟨[{ type := .ramNsec, pa := 0x10000000, size := 0x200000 }], by decide, ?_, ?_⟩
  · exact ⟨_, List.mem_cons_of_mem _ List.mem_cons_self, rfl, by decide⟩
  · rintro ⟨r, hr, -, hy⟩
    obtain rfl := List.mem_singleton.mp hr
    exact absurd hy (by decide)

end SeCloak
