import Mathlib.Tactic.Common

/-!
# Sorting an array (`qsort.c`)

The sort that the kernel takes from its C library: insertion sort for a few elements, and else a partition
around a pivot, which collects the elements equal to the pivot at both ends, and two smaller sorts. A
pointer is the index of its element. Each call and each round of the partition takes one from a fuel.
-/

namespace SeCloak.Qsort

variable {α : Type} {cmp : α → α → Int}

/-- `swap` and `swapfunc` on one element (`qsort.c:38-64`). -/
def swap (m : Nat → α) (i j : Nat) : Nat → α := fun x => if x = i then m j else if x = j then m i else m x

/-- `vecswap` (`qsort.c:65`). -/
def vecswap (m : Nat → α) (i j : Nat) : Nat → Nat → α
  | 0 => m
  | r + 1 => swap (vecswap m i j r) (i + r) (j + r)

/-- `med3` (`qsort.c:66-72`). -/
def med3 (cmp : α → α → Int) (m : Nat → α) (a b c : Nat) : Nat :=
  if cmp (m a) (m b) < 0 then (if cmp (m b) (m c) < 0 then b else if cmp (m a) (m c) < 0 then c else a)
  else (if cmp (m b) (m c) > 0 then b else if cmp (m a) (m c) < 0 then a else c)

/-- The inner loop of the insertion sort, from `pl` down. -/
def sink (cmp : α → α → Int) (a : Nat) (m : Nat → α) : Nat → Nat → α
  | 0 => m
  | pl + 1 => if a < pl + 1 ∧ cmp (m pl) (m (pl + 1)) > 0 then sink cmp a (swap m (pl + 1) pl) pl else m

/-- The insertion sort (`qsort.c:82-85`), after `k` rounds. -/
def insertFrom (cmp : α → α → Int) (a : Nat) (m : Nat → α) : Nat → Nat → α
  | 0 => m
  | k + 1 => sink cmp a (insertFrom cmp a m k) (a + 1 + k)

def insertionSort (cmp : α → α → Int) (a n : Nat) (m : Nat → α) : Nat → α := insertFrom cmp a m (n - 1)

/-- The choice of the pivot (`qsort.c:88-99`). -/
def pivot (cmp : α → α → Int) (m : Nat → α) (a n : Nat) : Nat :=
  let pm := a + n / 2
  if n > 7 then
    let pl := a
    let pn := a + (n - 1)
    if n > 40 then
      let d := n / 8
      med3 cmp m (med3 cmp m pl (pl + d) (pl + 2 * d)) (med3 cmp m (pm - d) pm (pm + d))
        (med3 cmp m (pn - 2 * d) (pn - d) pn)
    else med3 cmp m pl pm pn
  else pm

/-- The variables of the partition. -/
structure Part (α : Type) where
  m : Nat → α
  pa : Nat
  pb : Nat
  pc : Nat
  pd : Nat
  swapCnt : Bool

/-- The first inner loop (`qsort.c:105-112`), with the number of elements from `pb` to `pc`. -/
def up (cmp : α → α → Int) (a : Nat) : Nat → Part α → Part α
  | 0, s => s
  | k + 1, s =>
    let r := cmp (s.m s.pb) (s.m a)
    if r ≤ 0 then
      up cmp a k
        (if r = 0 then { s with swapCnt := true, m := swap s.m s.pa s.pb, pa := s.pa + 1, pb := s.pb + 1 }
        else { s with pb := s.pb + 1 })
    else s

/-- The second inner loop (`qsort.c:113-120`). -/
def down (cmp : α → α → Int) (a : Nat) : Nat → Part α → Part α
  | 0, s => s
  | k + 1, s =>
    let r := cmp (s.m s.pc) (s.m a)
    if r ≥ 0 then
      down cmp a k
        (if r = 0 then { s with swapCnt := true, m := swap s.m s.pc s.pd, pd := s.pd - 1, pc := s.pc - 1 }
        else { s with pc := s.pc - 1 })
    else s

/-- One round of the partition, up to the test whether it is the last one. -/
def scan (cmp : α → α → Int) (a : Nat) (s : Part α) : Part α :=
  let s := up cmp a (s.pc + 1 - s.pb) s
  down cmp a (s.pc + 1 - s.pb) s

/-- The partition (`qsort.c:101-127`). -/
def partition (cmp : α → α → Int) (a : Nat) : Nat → Part α → Option (Part α)
  | 0, _ => none
  | fuel + 1, s =>
    let s := scan cmp a s
    if s.pb > s.pc then some s
    else partition cmp a fuel
      { s with m := swap s.m s.pb s.pc, swapCnt := true, pb := s.pb + 1, pc := s.pc - 1 }

/-- The two exchanges that bring the elements equal to the pivot to the middle (`qsort.c:135-139`). -/
def gather (a n : Nat) (s : Part α) : Nat → α :=
  let pn := a + n
  let r := if s.pa - a < s.pb - s.pa then s.pa - a else s.pb - s.pa
  let m := vecswap s.m a (s.pb - r) r
  let r := if s.pd - s.pc < pn - s.pd - 1 then s.pd - s.pc else pn - s.pd - 1
  vecswap m s.pb (pn - r) r

/-- `qsort` (`qsort.c:73-149`). -/
def qsort (cmp : α → α → Int) : Nat → Nat → Nat → (Nat → α) → Option (Nat → α)
  | 0, _, _, _ => none
  | fuel + 1, a, n, m =>
    if n < 7 then some (insertionSort cmp a n m)
    else
      let m := swap m a (pivot cmp m a n)
      (partition cmp a fuel ⟨m, a + 1, a + 1, a + (n - 1), a + (n - 1), false⟩).bind fun s =>
        if s.swapCnt = false then some (insertionSort cmp a n s.m)
        else
          let m := gather a n s
          let r := s.pb - s.pa
          (if r > 1 then qsort cmp fuel a r m else some m).bind fun m =>
            let r := s.pd - s.pc
            if r > 1 then qsort cmp fuel (a + n - r) r m else some m

end SeCloak.Qsort
