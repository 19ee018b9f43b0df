import Mathlib.Data.List.GetD
import Mathlib.Data.List.Nodup
import Mathlib.Data.List.Perm.Basic
import SeCloak.Isoc.QsortProps

/-!
# Sorting a list

The sort looks at the elements only through the comparison (`qsort_comp`), so the comparison has to be that of an
order only among the elements that are there (`sort_pairwise_of_mem`).
-/

namespace SeCloak.Qsort

variable {α : Type} {cmp : α → α → Int} {m m' : Nat → α} {a n k fuel : Nat}

/-! ## Elements of another type -/

section Comp

variable {β : Type} (f : β → α) (m : Nat → β)

/-- The comparison of elements by what `f` gives for them. -/
def on (cmp : α → α → Int) (f : β → α) (x y : β) : Int := cmp (f x) (f y)

def Part.comp (f : β → α) (s : Part β) : Part α := ⟨f ∘ s.m, s.pa, s.pb, s.pc, s.pd, s.swapCnt⟩

theorem swap_comp (i j : Nat) : swap (f ∘ m) i j = f ∘ swap m i j := by
  funext x
  simp only [swap, Function.comp_apply]
  split
  · rfl
  · split <;> rfl

theorem vecswap_comp (i j r : Nat) : vecswap (f ∘ m) i j r = f ∘ vecswap m i j r := by
  induction r with
  | zero => rfl
  | succ r ih => rw [vecswap, ih, swap_comp, vecswap]

theorem sink_comp (a k : Nat) : sink cmp a (f ∘ m) k = f ∘ sink (on cmp f) a m k := by
  induction k generalizing m with
  | zero => rfl
  | succ k ih =>
    rw [sink, sink, swap_comp, ih]
    by_cases h : a < k + 1 ∧ on cmp f (m k) (m (k + 1)) > 0
    · rw [if_pos h]
      exact if_pos h
    · rw [if_neg h]
      exact if_neg h

theorem insertFrom_comp (a k : Nat) : insertFrom cmp a (f ∘ m) k = f ∘ insertFrom (on cmp f) a m k := by
  induction k with
  | zero => rfl
  | succ k ih => rw [insertFrom, ih, sink_comp, insertFrom]

theorem insertionSort_comp (a n : Nat) : insertionSort cmp a n (f ∘ m) = f ∘ insertionSort (on cmp f) a n m :=
  insertFrom_comp f m a (n - 1)

theorem up_comp (s : Part β) : up cmp a k (s.comp f) = (up (on cmp f) a k s).comp f := by
  induction k generalizing s with
  | zero => rfl
  | succ k ih =>
    rw [up_succ, up_succ]
    by_cases hr : on cmp f (s.m s.pb) (s.m a) ≤ 0
    · rw [if_pos hr, ← ih]
      refine (if_pos hr).trans ?_
      by_cases heq : on cmp f (s.m s.pb) (s.m a) = 0
      · rw [if_pos heq]
        refine (congrArg _ (if_pos heq)).trans ?_
        simp only [Part.comp, swap_comp]
      · rw [if_neg heq]
        exact congrArg _ (if_neg heq)
    · rw [if_neg hr]
      exact if_neg hr

theorem down_comp (s : Part β) : down cmp a k (s.comp f) = (down (on cmp f) a k s).comp f := by
  induction k generalizing s with
  | zero => rfl
  | succ k ih =>
    rw [down_succ, down_succ]
    by_cases hr : on cmp f (s.m s.pc) (s.m a) ≥ 0
    · rw [if_pos hr, ← ih]
      refine (if_pos hr).trans ?_
      by_cases heq : on cmp f (s.m s.pc) (s.m a) = 0
      · rw [if_pos heq]
        refine (congrArg _ (if_pos heq)).trans ?_
        simp only [Part.comp, swap_comp]
      · rw [if_neg heq]
        exact congrArg _ (if_neg heq)
    · rw [if_neg hr]
      exact if_neg hr

theorem scan_comp (s : Part β) : scan cmp a (s.comp f) = (scan (on cmp f) a s).comp f := by
  rw [scan, up_comp]
  exact down_comp f _

theorem partition_comp (cmp : α → α → Int) (a fuel : Nat) (s : Part β) :
    partition cmp a fuel (s.comp f) = (partition (on cmp f) a fuel s).map (Part.comp f) := by
  induction fuel generalizing s with
  | zero => rfl
  | succ fuel ih =>
    rw [partition, partition, scan_comp]
    generalize scan (on cmp f) a s = t
    by_cases hmet : t.pb > t.pc
    · rw [if_pos hmet]
      exact (if_pos hmet).trans rfl
    · rw [if_neg hmet, ← ih]
      refine (if_neg hmet).trans ?_
      simp only [Part.comp, swap_comp]

theorem gather_comp (s : Part β) : gather a n (s.comp f) = f ∘ gather a n s := by
  rw [gather, gather]
  simp only [Part.comp, vecswap_comp]
  rfl

/-- The sort looks at the elements only through the comparison. -/
theorem qsort_comp (cmp : α → α → Int) (fuel a n : Nat) :
    qsort cmp fuel a n (f ∘ m) = (qsort (on cmp f) fuel a n m).map (f ∘ ·) := by
  induction fuel generalizing a n m with
  | zero => rfl
  | succ fuel ih =>
    rw [qsort, qsort]
    by_cases hn : n < 7
    · rw [if_pos hn, if_pos hn, insertionSort_comp]
      rfl
    rw [if_neg hn, if_neg hn]
    have hpivot : pivot cmp (f ∘ m) a n = pivot (on cmp f) m a n := rfl
    dsimp only
    rw [hpivot, swap_comp]
    generalize swap m a (pivot (on cmp f) m a n) = m₀
    have hpart := partition_comp f cmp a fuel ⟨m₀, a + 1, a + 1, a + (n - 1), a + (n - 1), false⟩
    rw [Part.comp] at hpart
    rw [hpart]
    cases partition (on cmp f) a fuel ⟨m₀, a + 1, a + 1, a + (n - 1), a + (n - 1), false⟩ with
    | none => rfl
    | some s =>
      rw [Option.map_some, Option.bind_some, Option.bind_some]
      by_cases hcnt : s.swapCnt = false
      · rw [if_pos hcnt]
        exact (if_pos hcnt).trans (congrArg some (insertionSort_comp f s.m a n))
      rw [if_neg hcnt]
      refine (if_neg hcnt).trans ?_
      have hif : ∀ a r (m : Nat → β), (if r > 1 then qsort cmp fuel a r (f ∘ m) else some (f ∘ m)) =
          (if r > 1 then qsort (on cmp f) fuel a r m else some m).map (f ∘ ·) := by
        intro a r m
        split
        · exact ih m a r
        · rfl
      rw [gather_comp, hif, Option.map_bind, Option.bind_map]
      exact congrArg _ (funext fun m => hif _ _ m)

end Comp

/-! ## Lists -/

/-- `qsort` on the elements of a list; what is outside of the array does not matter. -/
def sort (cmp : α → α → Int) : List α → List α
  | [] => []
  | x :: xs =>
    match qsort cmp ((x :: xs).length + 1) 0 (x :: xs).length (fun i => (x :: xs).getD i x) with
    | some m => (List.range (x :: xs).length).map m
    | none => x :: xs

theorem sort_cons {x : α} {xs : List α} {m' : Nat → α}
    (h : qsort cmp ((x :: xs).length + 1) 0 (x :: xs).length (fun i => (x :: xs).getD i x) = some m') :
    sort cmp (x :: xs) = (List.range (x :: xs).length).map m' := by
  rw [sort, h]

theorem map_range_getD (x : α) (l : List α) : (List.range l.length).map (fun i => l.getD i x) = l := by
  apply List.ext_getElem
  · simp
  · intro i hi hi'
    rw [List.getElem_map, List.getElem_range, List.getD_eq_getElem _ _ hi']

theorem Rearranged.map_range (h : Rearranged 0 n m m') : ((List.range n).map m').Perm ((List.range n).map m) := by
  obtain ⟨σ, hσ, hm⟩ := h
  have hcomp : (List.range n).map m' = ((List.range n).map σ).map m := by
    rw [List.map_map]
    exact List.map_congr_left fun i _ => hm i
  rw [hcomp]
  refine List.Perm.map m ((List.perm_ext_iff_of_nodup (List.nodup_range.map σ.injective) List.nodup_range).mpr ?_)
  intro i
  rw [List.mem_map, List.mem_range]
  constructor
  · rintro ⟨j, hj, rfl⟩
    by_contra hge
    have hfix := σ.injective (hσ (σ j) (.inr (Nat.not_lt.mp hge)))
    rw [hfix] at hge
    exact hge (List.mem_range.mp hj)
  · intro hi
    refine ⟨σ.symm i, List.mem_range.mpr ?_, σ.apply_symm_apply i⟩
    by_contra hge
    have hfix := hσ (σ.symm i) (.inr (Nat.not_lt.mp hge))
    rw [σ.apply_symm_apply] at hfix
    omega

/-- The sort permutes a list, whatever the comparison returns. -/
theorem sort_perm (cmp : α → α → Int) (l : List α) : (sort cmp l).Perm l := by
  cases l with
  | nil => exact .nil
  | cons x xs =>
    obtain ⟨m', hrun, hperm, -⟩ := qsort_run (a := 0) cmp (Nat.lt_succ_self (x :: xs).length)
      (fun i => (x :: xs).getD i x)
    rw [Nat.zero_add] at hperm
    rw [sort_cons hrun]
    have hlist := hperm.map_range
    rw [map_range_getD] at hlist
    exact hlist

/-- The sort puts a list in order. -/
theorem sort_pairwise (hcmp : Consistent cmp) (l : List α) : (sort cmp l).Pairwise fun x y => cmp x y ≤ 0 := by
  cases l with
  | nil => exact .nil
  | cons x xs =>
    obtain ⟨m', hrun, -, hordered⟩ := qsort_run (a := 0) cmp (Nat.lt_succ_self (x :: xs).length)
      (fun i => (x :: xs).getD i x)
    rw [Nat.zero_add] at hordered
    rw [sort_cons hrun, List.pairwise_map]
    refine List.pairwise_lt_range.imp_of_mem fun {i j} _ hj hij => ?_
    exact hordered hcmp i j (Nat.zero_le i) hij (List.mem_range.mp hj)

example : sort (fun x y : Int => x - y) [5, 3, 8, 1, 9, 2, 7, 3, 5] = [1, 2, 3, 3, 5, 5, 7, 8, 9] := by decide

theorem sort_map {β : Type} (cmp : α → α → Int) (f : β → α) (l : List β) :
    sort cmp (l.map f) = (sort (on cmp f) l).map f := by
  cases l with
  | nil => rfl
  | cons x xs =>
    obtain ⟨m', hrun, -, -⟩ := qsort_run (a := 0) (on cmp f) (Nat.lt_succ_self (x :: xs).length)
      (fun i => (x :: xs).getD i x)
    have hcomp := qsort_comp f (fun i => (x :: xs).getD i x) cmp ((x :: xs).length + 1) 0 (x :: xs).length
    have helems : (f ∘ fun i => (x :: xs).getD i x) = fun i => (f x :: xs.map f).getD i (f x) := by
      funext i
      rw [← List.map_cons, List.getD_map]
      rfl
    have hlen : (x :: xs).length = (f x :: xs.map f).length := by simp
    rw [hrun, helems, hlen] at hcomp
    rw [sort_cons hrun, List.map_cons, sort_cons hcomp, List.map_map, hlen]

/-- The comparison is that of an order at least among the elements of the list. -/
theorem sort_pairwise_of_mem {l : List α} (hcmp : Consistent (on cmp (Subtype.val : {x // x ∈ l} → α))) :
    (sort cmp l).Pairwise fun x y => cmp x y ≤ 0 := by
  have hsorted := sort_pairwise hcmp l.attach
  have hmap := sort_map cmp (Subtype.val : {x // x ∈ l} → α) l.attach
  rw [List.attach_map_subtype_val] at hmap
  rw [hmap, List.pairwise_map]
  exact hsorted

end SeCloak.Qsort
