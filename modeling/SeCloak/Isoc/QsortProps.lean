import Mathlib.Logic.Equiv.Basic
import SeCloak.Isoc.Qsort

/-!
# What the sort does

Whatever the comparison returns, the sort ends, with a fuel of one more than the number of elements, and
permutes the array (`qsort_permutes`); if the comparison is that of an order, the array is sorted (`qsort_sorts`).
-/

namespace SeCloak.Qsort

variable {α : Type} {cmp : α → α → Int}

/-! ## Rearrangements -/

/-- `m'` is `m` with the elements from `lo` to `hi` permuted. -/
def Rearranged (lo hi : Nat) (m m' : Nat → α) : Prop :=
  ∃ σ : Equiv.Perm Nat, (∀ i, i < lo ∨ hi ≤ i → σ i = i) ∧ ∀ i, m' i = m (σ i)

variable {m m' m'' : Nat → α} {a n lo hi i j k r fuel : Nat} {s : Part α}

theorem Rearranged.refl (m : Nat → α) : Rearranged lo hi m m := ⟨.refl Nat, fun _ _ => rfl, fun _ => rfl⟩

theorem Rearranged.trans (h : Rearranged lo hi m m') (h' : Rearranged lo hi m' m'') : Rearranged lo hi m m'' := by
  obtain ⟨σ, hσ, hm⟩ := h
  obtain ⟨τ, hτ, hm'⟩ := h'
  refine ⟨τ.trans σ, fun i hi => ?_, fun i => ?_⟩
  · rw [Equiv.trans_apply, hτ i hi, hσ i hi]
  · rw [hm', hm, Equiv.trans_apply]

theorem Rearranged.mono {lo' hi' : Nat} (h : Rearranged lo hi m m') (hlo : lo' ≤ lo) (hhi : hi ≤ hi') :
    Rearranged lo' hi' m m' := by
  obtain ⟨σ, hσ, hm⟩ := h
  exact ⟨σ, fun i hi => hσ i (by omega), hm⟩

theorem Rearranged.outside (h : Rearranged lo hi m m') (hout : i < lo ∨ hi ≤ i) : m' i = m i := by
  obtain ⟨σ, hσ, hm⟩ := h
  rw [hm, hσ i hout]

/-- What holds of all elements in the range holds of them afterwards. -/
theorem Rearranged.forall {P : α → Prop} (h : Rearranged lo hi m m') (hP : ∀ i, lo ≤ i → i < hi → P (m i)) (i : Nat)
    (hlo : lo ≤ i) (hhi : i < hi) : P (m' i) := by
  obtain ⟨σ, hσ, hm⟩ := h
  rw [hm]
  have hin : ¬ (σ i < lo ∨ hi ≤ σ i) := by
    intro hout
    have hfix := σ.injective (hσ (σ i) hout)
    omega
  exact hP (σ i) (by omega) (by omega)

theorem rearranged_swap (hin : lo ≤ i ∧ i < hi) (hjn : lo ≤ j ∧ j < hi) : Rearranged lo hi m (swap m i j) := by
  refine ⟨Equiv.swap i j, fun x hx => Equiv.swap_apply_of_ne_of_ne (by omega) (by omega), fun x => ?_⟩
  rw [swap, Equiv.swap_apply_def]
  split
  · rfl
  · split <;> rfl

theorem rearranged_vecswap (hin : lo ≤ i ∧ i + r ≤ hi) (hjn : lo ≤ j ∧ j + r ≤ hi) :
    Rearranged lo hi m (vecswap m i j r) := by
  induction r with
  | zero => exact .refl m
  | succ r ih => exact (ih (by omega) (by omega)).trans (rearranged_swap (by omega) (by omega))

/-- Two ranges that do not overlap are exchanged. -/
theorem vecswap_apply (hij : i + r ≤ j) (x : Nat) : vecswap m i j r x =
    if i ≤ x ∧ x < i + r then m (x - i + j) else if j ≤ x ∧ x < j + r then m (x - j + i) else m x := by
  induction r generalizing x with
  | zero =>
    rw [if_neg (by omega), if_neg (by omega)]
    rfl
  | succ r ih =>
    have hfirst := ih (by omega) (i + r)
    have hsecond := ih (by omega) (j + r)
    rw [if_neg (by omega), if_neg (by omega)] at hfirst hsecond
    rw [vecswap, swap]
    by_cases hxi : x = i + r
    · subst hxi
      rw [if_pos rfl, hsecond, if_pos (by omega)]
      congr 1
      omega
    · by_cases hxj : x = j + r
      · subst hxj
        rw [if_neg hxi, if_pos rfl, hfirst, if_neg (by omega), if_pos (by omega)]
        congr 1
        omega
      · rw [if_neg hxi, if_neg hxj, ih (by omega) x]
        by_cases hin : i ≤ x ∧ x < i + r
        · rw [if_pos hin, if_pos (by omega)]
        · rw [if_neg hin]
          by_cases hin' : j ≤ x ∧ x < j + r
          · rw [if_pos hin', if_neg (by omega), if_pos (by omega)]
          · rw [if_neg hin', if_neg (by omega), if_neg (by omega)]

theorem rearranged_sink (ha : a ≤ k) : Rearranged a (k + 1) m (sink cmp a m k) := by
  induction k generalizing m with
  | zero => exact .refl m
  | succ k ih =>
    rw [sink]
    split
    next h => exact (rearranged_swap (by omega) (by omega)).trans ((ih (by omega)).mono (Nat.le_refl a) (by omega))
    next => exact .refl m

theorem rearranged_insertFrom : Rearranged a (a + 1 + k) m (insertFrom cmp a m k) := by
  induction k with
  | zero => exact .refl m
  | succ k ih =>
    have hle : a ≤ a + 1 + k := by omega
    exact (ih.mono (Nat.le_refl a) (by omega)).trans (rearranged_sink hle)

theorem rearranged_insertionSort (m : Nat → α) : Rearranged a (a + n) m (insertionSort cmp a n m) := by
  rcases Nat.eq_zero_or_pos n with rfl | hn
  · exact .refl m
  · exact rearranged_insertFrom.mono (Nat.le_refl a) (by omega)

theorem med3_mem (P : Nat → Prop) {b c : Nat} (ha : P a) (hb : P b) (hc : P c) : P (med3 cmp m a b c) := by
  unfold med3
  split
  · split
    · exact hb
    · split
      · exact hc
      · exact ha
  · split
    · exact hb
    · split
      · exact ha
      · exact hc

theorem pivot_mem (cmp : α → α → Int) (m : Nat → α) (hn : 7 ≤ n) : a ≤ pivot cmp m a n ∧ pivot cmp m a n < a + n := by
  unfold pivot
  dsimp only
  split
  · split
    · refine med3_mem (fun i => a ≤ i ∧ i < a + n) (med3_mem (fun i => a ≤ i ∧ i < a + n) ?_ ?_ ?_)
        (med3_mem (fun i => a ≤ i ∧ i < a + n) ?_ ?_ ?_) (med3_mem (fun i => a ≤ i ∧ i < a + n) ?_ ?_ ?_) <;> omega
    · refine med3_mem (fun i => a ≤ i ∧ i < a + n) ?_ ?_ ?_ <;> omega
  · omega

/-! ## The partition -/

/-- The order of the variables, with the bounds of the array from `a` to `hi`. -/
structure Bounds (a hi : Nat) (s : Part α) : Prop where
  lo : a < s.pa
  equal : s.pa ≤ s.pb
  gap : s.pb ≤ s.pc + 1
  high : s.pc ≤ s.pd
  inside : s.pd < hi

/-- What the partition keeps: elements equal to the pivot at both ends, small ones and large ones next to them. -/
structure Parted (cmp : α → α → Int) (a hi : Nat) (s : Part α) : Prop extends Bounds a hi s where
  low : ∀ i, a < i → i < s.pa → cmp (s.m i) (s.m a) = 0
  less : ∀ i, s.pa ≤ i → i < s.pb → cmp (s.m i) (s.m a) ≤ 0
  greater : ∀ i, s.pc < i → i ≤ s.pd → 0 ≤ cmp (s.m i) (s.m a)
  top : ∀ i, s.pd < i → i < hi → cmp (s.m i) (s.m a) = 0

theorem swap_of_ne {x : Nat} (hi : x ≠ i) (hj : x ≠ j) : swap m i j x = m x := by
  rw [swap, if_neg hi, if_neg hj]

/-- A round of the first loop at an element equal to the pivot. -/
theorem Parted.up_equal (h : Parted cmp a hi s) (hle : s.pb ≤ s.pc) (heq : cmp (s.m s.pb) (s.m a) = 0) :
    Parted cmp a hi { s with swapCnt := true, m := swap s.m s.pa s.pb, pa := s.pa + 1, pb := s.pb + 1 } := by
  obtain ⟨⟨hlo, hequal, hopen, hhigh, hinside⟩, hlow, hless, hgreater, htop⟩ := h
  have hself : swap s.m s.pa s.pb a = s.m a := swap_of_ne (by omega) (by omega)
  constructor
  · constructor <;> dsimp only <;> omega
  · intro i hi₁ hi₂
    dsimp only at hi₂ ⊢
    rw [hself, swap]
    split
    · exact heq
    · rw [if_neg (by omega)]
      exact hlow i hi₁ (by omega)
  · intro i hi₁ hi₂
    dsimp only at hi₁ hi₂ ⊢
    rw [hself, swap, if_neg (by omega)]
    split
    · exact hless s.pa (Nat.le_refl _) (by omega)
    · exact hless i (by omega) (by omega)
  · intro i hi₁ hi₂
    dsimp only at hi₁ hi₂ ⊢
    rw [hself, swap_of_ne (by omega) (by omega)]
    exact hgreater i hi₁ hi₂
  · intro i hi₁ hi₂
    dsimp only at hi₁ ⊢
    rw [hself, swap_of_ne (by omega) (by omega)]
    exact htop i hi₁ hi₂

/-- A round of the first loop at a small element. -/
theorem Parted.up_less (h : Parted cmp a hi s) (hle : s.pb ≤ s.pc) (hr : cmp (s.m s.pb) (s.m a) ≤ 0) :
    Parted cmp a hi { s with pb := s.pb + 1 } := by
  obtain ⟨⟨hlo, hequal, hopen, hhigh, hinside⟩, hlow, hless, hgreater, htop⟩ := h
  refine ⟨⟨hlo, by dsimp only; omega, by dsimp only; omega, hhigh, hinside⟩, hlow, ?_, hgreater, htop⟩
  intro i hi₁ hi₂
  rcases Nat.lt_or_ge i s.pb with hlt | hge
  · exact hless i hi₁ hlt
  · obtain rfl : i = s.pb := Nat.le_antisymm (Nat.le_of_lt_succ hi₂) hge
    exact hr

/-- A round of the second loop at an element equal to the pivot. -/
theorem Parted.down_equal (h : Parted cmp a hi s) (hle : s.pb ≤ s.pc) (heq : cmp (s.m s.pc) (s.m a) = 0) :
    Parted cmp a hi { s with swapCnt := true, m := swap s.m s.pc s.pd, pd := s.pd - 1, pc := s.pc - 1 } := by
  obtain ⟨⟨hlo, hequal, hopen, hhigh, hinside⟩, hlow, hless, hgreater, htop⟩ := h
  have hself : swap s.m s.pc s.pd a = s.m a := swap_of_ne (by omega) (by omega)
  constructor
  · constructor <;> dsimp only <;> omega
  · intro i hi₁ hi₂
    dsimp only at hi₂ ⊢
    rw [hself, swap_of_ne (by omega) (by omega)]
    exact hlow i hi₁ hi₂
  · intro i hi₁ hi₂
    dsimp only at hi₁ hi₂ ⊢
    rw [hself, swap_of_ne (by omega) (by omega)]
    exact hless i hi₁ hi₂
  · intro i hi₁ hi₂
    dsimp only at hi₁ hi₂ ⊢
    rw [hself, swap]
    split
    · exact hgreater s.pd (by omega) (Nat.le_refl _)
    · rw [if_neg (by omega)]
      exact hgreater i (by omega) (by omega)
  · intro i hi₁ hi₂
    dsimp only at hi₁ ⊢
    rw [hself, swap]
    split
    next hic =>
      have hsame : s.pd = s.pc := by omega
      rw [hsame]
      exact heq
    next hne =>
      split
      · exact heq
      · exact htop i (by omega) hi₂

/-- A round of the second loop at a large element. -/
theorem Parted.down_greater (h : Parted cmp a hi s) (hle : s.pb ≤ s.pc) (hr : 0 ≤ cmp (s.m s.pc) (s.m a)) :
    Parted cmp a hi { s with pc := s.pc - 1 } := by
  obtain ⟨⟨hlo, hequal, hopen, hhigh, hinside⟩, hlow, hless, hgreater, htop⟩ := h
  refine ⟨⟨hlo, hequal, by dsimp only; omega, by dsimp only; omega, hinside⟩, hlow, hless, ?_, htop⟩
  intro i hi₁ hi₂
  dsimp only at hi₁ hi₂
  rcases Nat.lt_or_ge s.pc i with hlt | hge
  · exact hgreater i hlt hi₂
  · obtain rfl : i = s.pc := by omega
    exact hr

theorem up_succ : up cmp a (k + 1) s = if cmp (s.m s.pb) (s.m a) ≤ 0 then up cmp a k
    (if cmp (s.m s.pb) (s.m a) = 0 then
      { s with swapCnt := true, m := swap s.m s.pa s.pb, pa := s.pa + 1, pb := s.pb + 1 }
    else { s with pb := s.pb + 1 }) else s := rfl

theorem down_succ : down cmp a (k + 1) s = if cmp (s.m s.pc) (s.m a) ≥ 0 then down cmp a k
    (if cmp (s.m s.pc) (s.m a) = 0 then
      { s with swapCnt := true, m := swap s.m s.pc s.pd, pd := s.pd - 1, pc := s.pc - 1 }
    else { s with pc := s.pc - 1 }) else s := rfl

theorem up_parted (h : Parted cmp a hi s) (hk : s.pb + k = s.pc + 1) : Parted cmp a hi (up cmp a k s) ∧
    Rearranged (a + 1) hi s.m (up cmp a k s).m ∧ (up cmp a k s).pc = s.pc ∧ s.pb ≤ (up cmp a k s).pb ∧
    ((up cmp a k s).pb ≤ s.pc → 0 < cmp ((up cmp a k s).m (up cmp a k s).pb) ((up cmp a k s).m a)) := by
  induction k generalizing s with
  | zero => exact ⟨h, .refl s.m, rfl, Nat.le_refl _, fun hle => by simp only [up] at hle; omega⟩
  | succ k ih =>
    obtain ⟨hlo, hequal, hopen, hhigh, hinside⟩ := h.toBounds
    rw [up_succ]
    by_cases hr : cmp (s.m s.pb) (s.m a) ≤ 0
    · rw [if_pos hr]
      by_cases heq : cmp (s.m s.pb) (s.m a) = 0
      · rw [if_pos heq]
        obtain ⟨hparted, hrest, hpc, hpb, hstop⟩ := ih (h.up_equal (by omega) heq) (by dsimp only; omega)
        have hswap : Rearranged (a + 1) hi s.m (swap s.m s.pa s.pb) := rearranged_swap (by omega) (by omega)
        exact ⟨hparted, hswap.trans hrest, hpc, Nat.le_of_succ_le hpb, hstop⟩
      · rw [if_neg heq]
        obtain ⟨hparted, hrest, hpc, hpb, hstop⟩ := ih (h.up_less (by omega) hr) (by dsimp only; omega)
        exact ⟨hparted, hrest, hpc, Nat.le_of_succ_le hpb, hstop⟩
    · rw [if_neg hr]
      exact ⟨h, .refl s.m, rfl, Nat.le_refl _, fun _ => by omega⟩

theorem down_parted (h : Parted cmp a hi s) (hk : s.pb + k = s.pc + 1) : Parted cmp a hi (down cmp a k s) ∧
    Rearranged ((down cmp a k s).pc + 1) hi s.m (down cmp a k s).m ∧ (down cmp a k s).pb = s.pb ∧
    (down cmp a k s).pc ≤ s.pc ∧
    (s.pb ≤ (down cmp a k s).pc → cmp ((down cmp a k s).m (down cmp a k s).pc) ((down cmp a k s).m a) < 0) := by
  induction k generalizing s with
  | zero => exact ⟨h, .refl s.m, rfl, Nat.le_refl _, fun hle => by simp only [down] at hle; omega⟩
  | succ k ih =>
    obtain ⟨hlo, hequal, hopen, hhigh, hinside⟩ := h.toBounds
    rw [down_succ]
    by_cases hr : cmp (s.m s.pc) (s.m a) ≥ 0
    · rw [if_pos hr]
      by_cases heq : cmp (s.m s.pc) (s.m a) = 0
      · rw [if_pos heq]
        obtain ⟨hparted, hrest, hpb, hpc, hstop⟩ := ih (h.down_equal (by omega) heq) (by dsimp only; omega)
        dsimp only at hpc
        have hswap : Rearranged s.pc hi s.m (swap s.m s.pc s.pd) := rearranged_swap (by omega) (by omega)
        exact ⟨hparted, (hswap.mono (by omega) (Nat.le_refl hi)).trans hrest, hpb, by omega, hstop⟩
      · rw [if_neg heq]
        obtain ⟨hparted, hrest, hpb, hpc, hstop⟩ := ih (h.down_greater (by omega) hr) (by dsimp only; omega)
        dsimp only at hpc
        exact ⟨hparted, hrest, hpb, by omega, hstop⟩
    · rw [if_neg hr]
      exact ⟨h, .refl s.m, rfl, Nat.le_refl _, fun _ => by omega⟩

/-- What one round of the partition does up to its test. -/
theorem scan_parted (h : Parted cmp a hi s) : Parted cmp a hi (scan cmp a s) ∧
    Rearranged (a + 1) hi s.m (scan cmp a s).m ∧ s.pb ≤ (scan cmp a s).pb ∧ (scan cmp a s).pc ≤ s.pc ∧
    ((scan cmp a s).pb ≤ (scan cmp a s).pc →
      0 < cmp ((scan cmp a s).m (scan cmp a s).pb) ((scan cmp a s).m a) ∧
      cmp ((scan cmp a s).m (scan cmp a s).pc) ((scan cmp a s).m a) < 0) := by
  have hopen := h.gap
  obtain ⟨hup, hperm, hpc, hpb, hstop⟩ := up_parted (k := s.pc + 1 - s.pb) h (by omega)
  rw [scan]
  generalize up cmp a (s.pc + 1 - s.pb) s = t at *
  have hopen' := hup.gap
  obtain ⟨hdown, hperm', hpb', hpc', hstop'⟩ := down_parted (k := t.pc + 1 - t.pb) hup (by omega)
  generalize down cmp a (t.pc + 1 - t.pb) t = u at *
  obtain ⟨hlo, hequal, hopen'', -, -⟩ := hdown.toBounds
  refine ⟨hdown, hperm.trans (hperm'.mono (by omega) (Nat.le_refl hi)), by omega, by omega, fun hle => ?_⟩
  -- the second loop changes nothing up to where it stops
  have hkept := hperm'.outside (i := u.pb) (by omega)
  have hself := hperm'.outside (i := a) (by omega)
  have hpos := hstop (by omega)
  rw [← hpb', ← hkept, ← hself] at hpos
  exact ⟨hpos, hstop' (by omega)⟩

/-- A round of the partition that is not the last one. -/
theorem Parted.exchange (h : Parted cmp a hi s) (hlt : s.pb < s.pc) (hpb : 0 < cmp (s.m s.pb) (s.m a))
    (hpc : cmp (s.m s.pc) (s.m a) < 0) :
    Parted cmp a hi { s with m := swap s.m s.pb s.pc, swapCnt := true, pb := s.pb + 1, pc := s.pc - 1 } := by
  obtain ⟨⟨hlo, hequal, hopen, hhigh, hinside⟩, hlow, hless, hgreater, htop⟩ := h
  have hself : swap s.m s.pb s.pc a = s.m a := swap_of_ne (by omega) (by omega)
  constructor
  · constructor <;> dsimp only <;> omega
  · intro i hi₁ hi₂
    dsimp only at hi₂ ⊢
    rw [hself, swap_of_ne (by omega) (by omega)]
    exact hlow i hi₁ hi₂
  · intro i hi₁ hi₂
    dsimp only at hi₁ hi₂ ⊢
    rw [hself, swap]
    split
    · exact Int.le_of_lt hpc
    · rw [if_neg (by omega)]
      exact hless i hi₁ (by omega)
  · intro i hi₁ hi₂
    dsimp only at hi₁ hi₂ ⊢
    rw [hself, swap, if_neg (by omega)]
    split
    · exact Int.le_of_lt hpb
    · exact hgreater i (by omega) hi₂
  · intro i hi₁ hi₂
    dsimp only at hi₁ ⊢
    rw [hself, swap_of_ne (by omega) (by omega)]
    exact htop i hi₁ hi₂

/-- The partition ends when its two loops have met. -/
theorem partition_parted (h : Parted cmp a hi s) (hfuel : s.pc + 1 - s.pb < fuel) : ∃ t,
    partition cmp a fuel s = some t ∧ Parted cmp a hi t ∧ t.pb = t.pc + 1 ∧ Rearranged (a + 1) hi s.m t.m := by
  induction fuel generalizing s with
  | zero => omega
  | succ fuel ih =>
    obtain ⟨hscan, hperm, hpb, hpc, hstop⟩ := scan_parted h
    rw [partition]
    generalize scan cmp a s = t at *
    obtain ⟨hlo, hequal, hopen, hhigh, hinside⟩ := hscan.toBounds
    by_cases hmet : t.pb > t.pc
    · rw [if_pos hmet]
      exact ⟨t, rfl, hscan, by omega, hperm⟩
    · rw [if_neg hmet]
      obtain ⟨hlarge, hsmall⟩ := hstop (by omega)
      have hne : t.pb ≠ t.pc := by
        intro heq
        rw [heq] at hlarge
        omega
      have hlt : t.pb < t.pc := by omega
      have hswap : Rearranged (a + 1) hi t.m (swap t.m t.pb t.pc) := rearranged_swap (by omega) (by omega)
      obtain ⟨u, hrun, hparted, hends, hperm'⟩ := ih (hscan.exchange hlt hlarge hsmall) (by dsimp only; omega)
      exact ⟨u, hrun, hparted, hends, (hperm.trans hswap).trans hperm'⟩

theorem parted_start (cmp : α → α → Int) (hn : 7 ≤ n) (m : Nat → α) :
    Parted cmp a (a + n) ⟨m, a + 1, a + 1, a + (n - 1), a + (n - 1), false⟩ := by
  constructor
  · constructor <;> dsimp only <;> omega
  · intro i hi₁ hi₂
    dsimp only at hi₂
    omega
  · intro i hi₁ hi₂
    dsimp only at hi₁ hi₂
    omega
  · intro i hi₁ hi₂
    dsimp only at hi₁ hi₂
    omega
  · intro i hi₁ hi₂
    dsimp only at hi₁
    omega

/-! ## Sorted arrays -/

/-- The comparison of an order, in which different elements may be equal. -/
structure Consistent (cmp : α → α → Int) : Prop where
  flip : ∀ x y, cmp x y ≤ 0 ↔ 0 ≤ cmp y x
  trans : ∀ x y z, cmp x y ≤ 0 → cmp y z ≤ 0 → cmp x z ≤ 0

/-- The elements from `lo` to `hi` are in order. -/
def Ordered (cmp : α → α → Int) (lo hi : Nat) (m : Nat → α) : Prop :=
  ∀ i j, lo ≤ i → i < j → j < hi → cmp (m i) (m j) ≤ 0

theorem Consistent.self (h : Consistent cmp) (x : α) : cmp x x = 0 := by
  have hflip := h.flip x x
  omega

/-- The inner loop puts the element `k` in its place among the sorted ones before it. -/
theorem sink_ordered (hcmp : Consistent cmp) (hbut : ∀ i j, a ≤ i → i < j → j < hi → j ≠ k → cmp (m i) (m j) ≤ 0) :
    Ordered cmp a hi (sink cmp a m k) := by
  induction k generalizing m with
  | zero => exact fun i j hi₁ hij hj => hbut i j hi₁ hij hj (by omega)
  | succ k ih =>
    rw [sink]
    split
    next hstep =>
      refine ih fun i j hi₁ hij hj hne => ?_
      have hflip := hcmp.flip (m (k + 1)) (m k)
      by_cases hjk : j = k + 1
      · subst hjk
        by_cases hik : i = k
        · subst hik
          rw [swap, swap, if_neg (by omega), if_pos rfl, if_pos rfl]
          omega
        · rw [swap_of_ne (by omega) (by omega), swap, if_pos rfl]
          exact hbut i k hi₁ (by omega) (by omega) (by omega)
      · rw [swap_of_ne hjk hne, swap]
        split
        · exact hbut k j (by omega) (by omega) hj hjk
        · split
          · exact hbut (k + 1) j (by omega) (by omega) hj hjk
          · exact hbut i j hi₁ hij hj hjk
    next hstop =>
      intro i j hi₁ hij hj
      by_cases hjk : j = k + 1
      · subst hjk
        have hlast : cmp (m k) (m (k + 1)) ≤ 0 := by
          by_contra hpos
          exact hstop ⟨by omega, by omega⟩
        by_cases hik : i = k
        · subst hik
          exact hlast
        · exact hcmp.trans _ _ _ (hbut i k hi₁ (by omega) (by omega) (by omega)) hlast
      · exact hbut i j hi₁ hij hj hjk

theorem insertFrom_ordered (hcmp : Consistent cmp) : Ordered cmp a (a + 1 + k) (insertFrom cmp a m k) := by
  induction k with
  | zero =>
    intro i j hi₁ hij hj
    omega
  | succ k ih => exact sink_ordered hcmp fun i j hi₁ hij hj hne => ih i j hi₁ hij (by omega)

theorem insertionSort_ordered (hcmp : Consistent cmp) : Ordered cmp a (a + n) (insertionSort cmp a n m) := by
  intro i j hi₁ hij hj
  exact insertFrom_ordered hcmp i j hi₁ hij (by omega)

/-- Small elements, elements equal to `p` and large elements, next to each other. -/
structure Split (cmp : α → α → Int) (p : α) (lo u v hi : Nat) (m : Nat → α) : Prop where
  low : ∀ i, lo ≤ i → i < u → cmp (m i) p ≤ 0
  mid : ∀ i, u ≤ i → i < v → cmp (m i) p = 0
  high : ∀ i, v ≤ i → i < hi → 0 ≤ cmp (m i) p

section Split

variable {p : α} {u v : Nat}

theorem Split.ordered (hcmp : Consistent cmp) (h : Split cmp p lo u v hi m) (hlow : Ordered cmp lo u m)
    (hhigh : Ordered cmp v hi m) : Ordered cmp lo hi m := by
  intro i j hlo hij hhi
  by_cases hju : j < u
  · exact hlow i j hlo hij hju
  by_cases hvi : v ≤ i
  · exact hhigh i j hvi hij hhi
  have hleft : cmp (m i) p ≤ 0 := by
    by_cases hiu : i < u
    · exact h.low i hlo hiu
    · exact Int.le_of_eq (h.mid i (by omega) (by omega))
  have hright : cmp p (m j) ≤ 0 := by
    rw [hcmp.flip]
    by_cases hjv : j < v
    · exact Int.le_of_eq (h.mid j (by omega) hjv).symm
    · exact h.high j (by omega) hhi
  exact hcmp.trans _ _ _ hleft hright

theorem Split.rearranged_low (h : Split cmp p lo u v hi m) (huv : u ≤ v) (hperm : Rearranged lo u m m') :
    Split cmp p lo u v hi m' := by
  have hlow := hperm.forall (P := fun x => cmp x p ≤ 0) h.low
  refine ⟨hlow, fun i hu hv => ?_, fun i hv hhi => ?_⟩
  · rw [hperm.outside (.inr hu)]
    exact h.mid i hu hv
  · rw [hperm.outside (.inr (Nat.le_trans huv hv))]
    exact h.high i hv hhi

theorem Split.rearranged_high (h : Split cmp p lo u v hi m) (huv : u ≤ v) (hperm : Rearranged v hi m m') :
    Split cmp p lo u v hi m' := by
  have hhigh := hperm.forall (P := fun x => 0 ≤ cmp x p) h.high
  refine ⟨fun i hlo hu => ?_, fun i hu hv => ?_, hhigh⟩
  · rw [hperm.outside (.inl (by omega))]
    exact h.low i hlo hu
  · rw [hperm.outside (.inl hv)]
    exact h.mid i hu hv

end Split

/-- After the two exchanges the elements equal to the pivot are in the middle. -/
theorem gather_split (hcmp : Consistent cmp) (h : Parted cmp a (a + n) s) (hends : s.pb = s.pc + 1) :
    Split cmp (s.m a) a (a + (s.pb - s.pa)) (a + n - (s.pd - s.pc)) (a + n) (gather a n s) := by
  obtain ⟨⟨hlo, hequal, hopen, hhigh, hinside⟩, hlow, hless, hgreater, htop⟩ := h
  have hfirst : ∀ i, a ≤ i → i < s.pa → cmp (s.m i) (s.m a) = 0 := by
    intro i hi₁ hi₂
    by_cases hself : i = a
    · rw [hself]
      exact hcmp.self _
    · exact hlow i (by omega) hi₂
  rw [gather]
  generalize hr : (if s.pa - a < s.pb - s.pa then s.pa - a else s.pb - s.pa) = r
  generalize hr' : (if s.pd - s.pc < a + n - s.pd - 1 then s.pd - s.pc else a + n - s.pd - 1) = r'
  have hmin : r ≤ s.pa - a ∧ r ≤ s.pb - s.pa ∧ (r = s.pa - a ∨ r = s.pb - s.pa) := by
    split at hr <;> omega
  have hmin' : r' ≤ s.pd - s.pc ∧ r' ≤ a + n - s.pd - 1 ∧ (r' = s.pd - s.pc ∨ r' = a + n - s.pd - 1) := by
    split at hr' <;> omega
  have happly := fun x => vecswap_apply (m := s.m) (i := a) (j := s.pb - r) (r := r) (by omega) x
  have happly' := fun x => vecswap_apply (m := vecswap s.m a (s.pb - r) r) (i := s.pb) (j := a + n - r') (r := r')
    (by omega) x
  constructor
  · intro i hi₁ hi₂
    rw [happly', if_neg (by omega), if_neg (by omega), happly]
    split
    · exact hless _ (by omega) (by omega)
    · rw [if_neg (by omega)]
      by_cases hin : i < s.pa
      · exact Int.le_of_eq (hfirst i hi₁ hin)
      · exact hless i (by omega) (by omega)
  · intro i hi₁ hi₂
    rw [happly']
    split
    · rw [happly, if_neg (by omega), if_neg (by omega)]
      exact htop _ (by omega) (by omega)
    · rw [if_neg (by omega), happly, if_neg (by omega)]
      split
      · exact hfirst _ (by omega) (by omega)
      · by_cases hin : i < s.pa
        · exact hfirst i (by omega) hin
        · exact htop i (by omega) (by omega)
  · intro i hi₁ hi₂
    rw [happly', if_neg (by omega)]
    split
    · rw [happly, if_neg (by omega), if_neg (by omega)]
      exact hgreater _ (by omega) (by omega)
    · rw [happly, if_neg (by omega), if_neg (by omega)]
      by_cases hin : i ≤ s.pd
      · exact hgreater i (by omega) hin
      · exact Int.le_of_eq (htop i (by omega) hi₂).symm

theorem rearranged_gather (h : Bounds a (a + n) s) (hends : s.pb = s.pc + 1) :
    Rearranged a (a + n) s.m (gather a n s) := by
  obtain ⟨hlo, hequal, hopen, hhigh, hinside⟩ := h
  rw [gather]
  generalize hr : (if s.pa - a < s.pb - s.pa then s.pa - a else s.pb - s.pa) = r
  generalize hr' : (if s.pd - s.pc < a + n - s.pd - 1 then s.pd - s.pc else a + n - s.pd - 1) = r'
  have hmin : r ≤ s.pb - s.pa := by
    split at hr <;> omega
  have hmin' : r' ≤ a + n - s.pd - 1 := by
    split at hr' <;> omega
  exact (rearranged_vecswap (by omega) (by omega)).trans (rearranged_vecswap (by omega) (by omega))

/-! ## The sort -/

theorem qsort_run (cmp : α → α → Int) (hfuel : n < fuel) (m : Nat → α) : ∃ m', qsort cmp fuel a n m = some m' ∧
    Rearranged a (a + n) m m' ∧ (Consistent cmp → Ordered cmp a (a + n) m') := by
  induction fuel generalizing a n m with
  | zero => omega
  | succ fuel ih =>
    rw [qsort]
    by_cases hn : n < 7
    · rw [if_pos hn]
      exact ⟨_, rfl, rearranged_insertionSort m, insertionSort_ordered⟩
    rw [if_neg hn]
    have hpivot := pivot_mem (a := a) cmp m (Nat.not_lt.mp hn)
    have hswap : Rearranged a (a + n) m (swap m a (pivot cmp m a n)) := rearranged_swap (by omega) hpivot
    generalize swap m a (pivot cmp m a n) = m₀ at *
    dsimp only
    have hstart := parted_start (a := a) cmp (Nat.not_lt.mp hn) m₀
    have hrounds : a + (n - 1) + 1 - (a + 1) < fuel := by omega
    obtain ⟨s, hrun, hparted, hends, hperm⟩ := partition_parted hstart hrounds
    have hmoved := hswap.trans (hperm.mono (Nat.le_succ a) (Nat.le_refl _))
    rw [hrun, Option.bind_some]
    by_cases hcnt : s.swapCnt = false
    · rw [if_pos hcnt]
      exact ⟨_, rfl, hmoved.trans (rearranged_insertionSort s.m), insertionSort_ordered⟩
    rw [if_neg hcnt]
    -- a part with one element needs no sort
    have hpart : ∀ a r m, r < fuel → ∃ m', (if r > 1 then qsort cmp fuel a r m else some m) = some m' ∧
        Rearranged a (a + r) m m' ∧ (Consistent cmp → Ordered cmp a (a + r) m') := by
      intro a r m hr
      split
      next => exact ih hr m
      next =>
        refine ⟨m, rfl, .refl m, fun _ i j hi₁ hij hj => ?_⟩
        omega
    obtain ⟨hlo, hequal, hopen, hhigh, hinside⟩ := hparted.toBounds
    obtain ⟨m₁, hfirst, hperm₁, hsorted₁⟩ := hpart a (s.pb - s.pa) (gather a n s) (by omega)
    obtain ⟨m₂, hsecond, hperm₂, hsorted₂⟩ := hpart (a + n - (s.pd - s.pc)) (s.pd - s.pc) m₁ (by omega)
    rw [hfirst, Option.bind_some]
    have hend : a + n - (s.pd - s.pc) + (s.pd - s.pc) = a + n := by omega
    rw [hend] at hperm₂ hsorted₂
    refine ⟨m₂, hsecond, ?_, fun hcmp => ?_⟩
    · have hgather := hmoved.trans (rearranged_gather hparted.toBounds hends)
      exact (hgather.trans (hperm₁.mono (Nat.le_refl a) (by omega))).trans (hperm₂.mono (by omega) (Nat.le_refl _))
    · have huv : a + (s.pb - s.pa) ≤ a + n - (s.pd - s.pc) := by omega
      have hsplit := (gather_split hcmp hparted hends).rearranged_low huv hperm₁
      refine (hsplit.rearranged_high huv hperm₂).ordered hcmp (fun i j hi₁ hij hj => ?_) (hsorted₂ hcmp)
      rw [hperm₂.outside (.inl (by omega)), hperm₂.outside (.inl (by omega))]
      exact hsorted₁ hcmp i j hi₁ hij hj

/-- Whatever the comparison returns, the sort ends and permutes the array. -/
theorem qsort_permutes (cmp : α → α → Int) (m : Nat → α) (a n : Nat) :
    ∃ m', qsort cmp (n + 1) a n m = some m' ∧ Rearranged a (a + n) m m' := by
  obtain ⟨m', hrun, hperm, -⟩ := qsort_run (a := a) cmp (Nat.lt_succ_self n) m
  exact ⟨m', hrun, hperm⟩

/-- With the comparison of an order the array is sorted. -/
theorem qsort_sorts (hcmp : Consistent cmp) (m : Nat → α) (a n : Nat) :
    ∃ m', qsort cmp (n + 1) a n m = some m' ∧ Rearranged a (a + n) m m' ∧ Ordered cmp a (a + n) m' := by
  obtain ⟨m', hrun, hperm, hordered⟩ := qsort_run (a := a) cmp (Nat.lt_succ_self n) m
  exact ⟨m', hrun, hperm, hordered hcmp⟩

theorem qsort_sorts_numbers : ∃ m', qsort (fun x y => x - y) 9 2 8 (fun i => (i : Int) * (7 - i)) = some m' ∧
    Rearranged 2 10 (fun i => (i : Int) * (7 - i)) m' ∧ Ordered (fun x y => x - y) 2 10 m' :=
  qsort_sorts ⟨by omega, by omega⟩ _ 2 8

end SeCloak.Qsort
