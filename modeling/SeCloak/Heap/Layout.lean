import SeCloak.Heap.Malloc
import SeCloak.Misc.Ring

/-!
# Well-formed heaps (`bget.c:490-570`, `bget.c:988-1060`)

A pool is tiled by blocks that are free or allocated, and ends with a header that no block has. Each
header says how long its block is and how long the block before it is if that one is free. Two free
blocks do not meet, and the free blocks form a circular list through `freelist`.
-/

namespace SeCloak
open Misc

/-! ## Blocks -/

inductive BlockKind where
  | free
  | allocated
  | sentinel
  deriving DecidableEq

/-- A block, or the header at the end of a pool. -/
structure Block where
  addr : Nat
  size : Nat
  kind : BlockKind
  deriving DecidableEq

/-- `ESent` (`bget.c:569`). -/
def eSent : Int := -2147483648

namespace Block

/-- The address behind the block. -/
def stop (b : Block) : Nat := b.addr + b.size

/-- What `prevfree` says of the block in the header that follows. -/
def freeSize (b : Block) : Int := if b.kind = .free then (b.size : Int) else 0

/-- What `bsize` says in the header of the block. -/
def bsize (b : Block) : Int :=
  match b.kind with
  | .free => b.size
  | .allocated => -b.size
  | .sentinel => eSent

/-- A block has room for its header and the links of the free list. -/
def Sized (b : Block) : Prop :=
  b.stop ≤ 2 ^ 32 ∧ if b.kind = .sentinel then b.size = sizeofBhead else 16 ≤ b.size ∧ b.size < 2 ^ 31

/-- The next block of a pool follows at once, the first block of the next pool at any distance. -/
def Follows (b c : Block) : Prop :=
  if b.kind = .sentinel then b.stop ≤ c.addr
  else c.addr = b.stop ∧ (b.kind = .free → c.kind ≠ .free)

end Block

/-- The length of the pool that the next block belongs to; it was `n` before these blocks. -/
def poolLength : Nat → List Block → Nat
  | n, [] => n
  | n, b :: bs => poolLength (if b.kind = .sentinel then 0 else n + b.size) bs

/-- The pools are no longer than `bpool` allows (`bget.c:1016`). -/
def Short : Nat → List Block → Prop
  | _, [] => True
  | n, b :: bs => (b.kind = .sentinel ∨ n + b.size < 2 ^ 31) ∧
      Short (if b.kind = .sentinel then 0 else n + b.size) bs

/-- The blocks tile pools in ascending order, and the head of the free list is in none of them. -/
structure Tiling (freelist : Nat) (blocks : List Block) : Prop where
  follows : blocks.IsChain Block.Follows
  short : Short 0 blocks
  ends : ∀ b ∈ blocks.getLast?, b.kind = .sentinel
  sized : ∀ b ∈ blocks, b.Sized
  head_lt : freelist + 16 ≤ 2 ^ 32
  apart : ∀ b ∈ blocks, freelist + 16 ≤ b.addr ∨ b.stop ≤ freelist

/-- The headers agree with the blocks; `pf` is what the first one says of the block before it. -/
def Headers (m : Bytes) : Int → List Block → Prop
  | _, [] => True
  | pf, b :: bs => prevfreeOf m b.addr = pf ∧ bsizeOf m b.addr = b.bsize ∧ Headers m b.freeSize bs

/-- The addresses of the free blocks. -/
def freeAddrs (blocks : List Block) : List Nat := (blocks.filter (·.kind = .free)).map Block.addr

/-- A well-formed heap with these blocks. -/
structure WellFormed (m : Bytes) (freelist : Nat) (blocks : List Block) : Prop where
  tiling : Tiling freelist blocks
  headers : Headers m 0 blocks
  list : ∃ nodes, nodes.Perm (freeAddrs blocks) ∧ Ring (flinkOf m) (blinkOf m) freelist nodes

/-- The bytes of a block behind its header are the same. -/
def Block.SamePayload (b : Block) (m m' : Bytes) : Prop :=
  ∀ x, b.addr + sizeofBhead ≤ x → x < b.stop → m' x = m x

/-- The allocated blocks are still there, with what is in them. -/
def Kept (m : Bytes) (blocks : List Block) (m' : Bytes) (blocks' : List Block) : Prop :=
  ∀ b ∈ blocks, b.kind = .allocated → b ∈ blocks' ∧ b.SamePayload m m'

theorem Kept.refl (m : Bytes) (blocks : List Block) : Kept m blocks m blocks :=
  fun _ hb _ => ⟨hb, fun _ _ _ => rfl⟩

theorem Kept.trans {m m' m'' : Bytes} {blocks blocks' blocks'' : List Block}
    (h : Kept m blocks m' blocks') (h' : Kept m' blocks' m'' blocks'') :
    Kept m blocks m'' blocks'' := by
  intro b hb hkind
  obtain ⟨hb', hsame⟩ := h b hb hkind
  obtain ⟨hb'', hsame'⟩ := h' b hb' hkind
  exact ⟨hb'', fun x hlo hhi => (hsame' x hlo hhi).trans (hsame x hlo hhi)⟩

/-! ## Geometry -/

section Geometry

variable {freelist : Nat} {blocks front back mid : List Block} {b c : Block}

theorem Block.Sized.pos (h : b.Sized) : b.addr + 8 ≤ b.stop := by
  have hsize := h.2
  split at hsize
  · rw [Block.stop, hsize]
    exact Nat.le_refl _
  · rw [Block.stop]
    omega

theorem Block.Sized.room (h : b.Sized) (hkind : b.kind ≠ .sentinel) :
    b.addr + 16 ≤ b.stop ∧ b.size < 2 ^ 31 := by
  have hsize := h.2
  rw [if_neg hkind] at hsize
  exact ⟨Nat.add_le_add_left hsize.1 _, hsize.2⟩

theorem Block.sized_iff (hkind : b.kind ≠ .sentinel) :
    b.Sized ↔ b.stop ≤ 2 ^ 32 ∧ 16 ≤ b.size ∧ b.size < 2 ^ 31 := by
  rw [Block.Sized, if_neg hkind]

theorem Block.Follows.stop_le (h : b.Follows c) : b.stop ≤ c.addr := by
  unfold Block.Follows at h
  split at h
  · exact h
  · exact Nat.le_of_eq h.1.symm

/-- Blocks are in ascending order. -/
theorem Tiling.sorted (h : Tiling freelist blocks) : blocks.Pairwise fun b c => b.stop ≤ c.addr := by
  have hchain : blocks.IsChain fun b c => b.addr ≤ b.stop ∧ b.stop ≤ c.addr := by
    refine h.follows.imp_of_mem_imp fun b c hb _ hbc => ⟨?_, hbc.stop_le⟩
    exact Nat.le_add_right _ _
  have : Trans (fun b c : Block => b.addr ≤ b.stop ∧ b.stop ≤ c.addr)
      (fun b c : Block => b.addr ≤ b.stop ∧ b.stop ≤ c.addr)
      (fun b c : Block => b.addr ≤ b.stop ∧ b.stop ≤ c.addr) :=
    ⟨fun hbc hcd => ⟨hbc.1, Nat.le_trans hbc.2 (Nat.le_trans hcd.1 hcd.2)⟩⟩
  exact hchain.pairwise.imp And.right

theorem Tiling.split (h : Tiling freelist (front ++ b :: back)) :
    (∀ c ∈ front, c.stop ≤ b.addr) ∧ ∀ c ∈ back, b.stop ≤ c.addr := by
  obtain ⟨-, hback, hseam⟩ := List.pairwise_append.mp h.sorted
  exact ⟨fun c hc => hseam c hc b List.mem_cons_self, (List.pairwise_cons.mp hback).1⟩

theorem Tiling.apart_of_ne (h : Tiling freelist blocks) (hb : b ∈ blocks) (hc : c ∈ blocks)
    (hne : b ≠ c) : b.stop ≤ c.addr ∨ c.stop ≤ b.addr := by
  have : Std.Symm fun b c : Block => b.stop ≤ c.addr ∨ c.stop ≤ b.addr := ⟨fun _ _ => Or.symm⟩
  have hpair : blocks.Pairwise fun b c => b.stop ≤ c.addr ∨ c.stop ≤ b.addr := h.sorted.imp Or.inl
  exact hpair.forall hb hc hne

theorem mem_freeAddrs {x : Nat} :
    x ∈ freeAddrs blocks ↔ ∃ b ∈ blocks, b.kind = .free ∧ b.addr = x := by
  simp [freeAddrs, and_assoc]

/-- The links of a node of the free list are no part of a block, or behind the header of a free one. -/
theorem Tiling.node_apart (h : Tiling freelist blocks) {x : Nat}
    (hx : x ∈ freelist :: freeAddrs blocks) (hb : b ∈ blocks) :
    (b.kind = .free ∧ x = b.addr) ∨ x + 16 ≤ b.addr ∨ b.stop ≤ x := by
  rcases List.mem_cons.mp hx with rfl | hx
  · exact Or.inr (h.apart b hb)
  · obtain ⟨c, hc, hkind, rfl⟩ := mem_freeAddrs.mp hx
    by_cases hcb : c = b
    · exact Or.inl ⟨hcb ▸ hkind, by rw [hcb]⟩
    · have hroom := ((h.sized c hc).room (by rw [hkind]; decide)).1
      rcases h.apart_of_ne hc hb hcb with hle | hle
      · exact Or.inr (Or.inl (Nat.le_trans hroom hle))
      · exact Or.inr (Or.inr hle)

/-- Two nodes of the free list have their own links. -/
theorem Tiling.nodes_apart (h : Tiling freelist blocks) {x y : Nat}
    (hx : x ∈ freelist :: freeAddrs blocks) (hy : y ∈ freelist :: freeAddrs blocks) :
    x = y ∨ x + 16 ≤ y ∨ y + 16 ≤ x := by
  rcases List.mem_cons.mp hy with rfl | hy'
  · rcases List.mem_cons.mp hx with rfl | hx'
    · exact Or.inl rfl
    · obtain ⟨c, hc, hkind, rfl⟩ := mem_freeAddrs.mp hx'
      have hroom := ((h.sized c hc).room (by rw [hkind]; decide)).1
      rcases h.apart c hc with hle | hle
      · exact Or.inr (Or.inr hle)
      · exact Or.inr (Or.inl (Nat.le_trans hroom hle))
  · obtain ⟨c, hc, hkind, rfl⟩ := mem_freeAddrs.mp hy'
    have hroom := ((h.sized c hc).room (by rw [hkind]; decide)).1
    rcases h.node_apart hx hc with ⟨-, rfl⟩ | hle | hle
    · exact Or.inl rfl
    · exact Or.inr (Or.inl hle)
    · exact Or.inr (Or.inr (Nat.le_trans hroom hle))

/-- Another block at the same place. -/
theorem Block.Follows.congr_right {d : Block} (h : b.Follows c) (haddr : d.addr = c.addr)
    (hkind : b.kind = .free → d.kind ≠ .free) : b.Follows d := by
  unfold Block.Follows at h ⊢
  rw [haddr]
  split at h
  · rename_i hb
    rw [if_pos hb]
    exact h
  · rename_i hb
    rw [if_neg hb]
    exact ⟨h.1, hkind⟩

/-- Another block with the same end. -/
theorem Block.Follows.congr_left {d : Block} (h : b.Follows c) (hb : b.kind ≠ .sentinel)
    (hd : d.kind ≠ .sentinel) (hstop : d.stop = b.stop) (hkind : d.kind = .free → c.kind ≠ .free) :
    d.Follows c := by
  unfold Block.Follows at h ⊢
  rw [if_neg hb] at h
  rw [if_neg hd, hstop]
  exact ⟨h.1, hkind⟩

theorem Block.follows_of_stop (hb : b.kind ≠ .sentinel) (haddr : c.addr = b.stop)
    (hkind : b.kind = .free → c.kind ≠ .free) : b.Follows c := by
  rw [Block.Follows, if_neg hb]
  exact ⟨haddr, hkind⟩

theorem short_append {n : Nat} {xs ys : List Block} :
    Short n (xs ++ ys) ↔ Short n xs ∧ Short (poolLength n xs) ys := by
  induction xs generalizing n with
  | nil => simp [Short, poolLength]
  | cons x xs ih => simp [Short, poolLength, ih, and_assoc]

/-- Blocks in the middle are exchanged for others that cover the same addresses. -/
theorem Tiling.replace {mid' : List Block} (h : Tiling freelist (front ++ (mid ++ back)))
    (hback : back ≠ []) (hne : mid' ≠ [])
    (hshort : ∀ n, Short n mid → Short n mid' ∧ poolLength n mid' = poolLength n mid)
    (hmid : mid'.IsChain Block.Follows)
    (hin : ∀ b ∈ front.getLast?, ∀ c ∈ mid'.head?, b.Follows c)
    (hout : ∀ b ∈ mid'.getLast?, ∀ c ∈ back.head?, b.Follows c) (hsized : ∀ b ∈ mid', b.Sized)
    (hapart : ∀ b ∈ mid', freelist + 16 ≤ b.addr ∨ b.stop ≤ freelist) :
    Tiling freelist (front ++ (mid' ++ back)) where
  follows := by
    have hfollows := h.follows
    rw [List.isChain_append, List.isChain_append] at hfollows
    rw [List.isChain_append, List.isChain_append]
    refine ⟨hfollows.1, ⟨hmid, hfollows.2.1.2.1, hout⟩, ?_⟩
    rw [List.head?_append_of_ne_nil _ hne]
    exact hin
  short := by
    have hold := h.short
    rw [short_append, short_append] at hold
    obtain ⟨hshort', hlength⟩ := hshort _ hold.2.1
    rw [short_append, short_append, hlength]
    exact ⟨hold.1, hshort', hold.2.2⟩
  ends := by
    have hends := h.ends
    rw [List.getLast?_append_of_ne_nil _ (by simp [hback]), List.getLast?_append_of_ne_nil _ hback]
      at hends ⊢
    exact hends
  sized := by
    intro b hb
    rcases List.mem_append.mp hb with hb | hb
    · exact h.sized b (List.mem_append_left _ hb)
    · rcases List.mem_append.mp hb with hb | hb
      · exact hsized b hb
      · exact h.sized b (List.mem_append_right _ (List.mem_append_right _ hb))
  head_lt := h.head_lt
  apart := by
    intro b hb
    rcases List.mem_append.mp hb with hb | hb
    · exact h.apart b (List.mem_append_left _ hb)
    · rcases List.mem_append.mp hb with hb | hb
      · exact hapart b hb
      · exact h.apart b (List.mem_append_right _ (List.mem_append_right _ hb))

/-- The last block of a tiling is a sentinel, so that a block is followed by another. -/
theorem Tiling.exists_next (h : Tiling freelist (front ++ b :: back)) (hb : b.kind ≠ .sentinel) :
    ∃ c rest, back = c :: rest ∧ b.Follows c := by
  cases back with
  | nil =>
    have hend := h.ends b (by simp)
    exact absurd hend hb
  | cons c rest =>
    refine ⟨c, rest, rfl, ?_⟩
    exact (List.isChain_append_cons_cons.mp h.follows).2.1

/-- The boundary between two blocks moves. -/
theorem Tiling.moveBoundary {x y x' y' : Block} (h : Tiling freelist (front ++ x :: y :: back))
    (hx : x.kind ≠ .sentinel) (hy : y.kind ≠ .sentinel) (hxKind : x'.kind = x.kind)
    (hyKind : y'.kind = y.kind) (haddr : x'.addr = x.addr) (hseam : y'.addr = x'.stop)
    (hstop : y'.stop = y.stop) (hxRoom : 16 ≤ x'.size) (hyRoom : 16 ≤ y'.size) :
    Tiling freelist (front ++ x' :: y' :: back) := by
  have hxMem : x ∈ front ++ x :: y :: back := List.mem_append_right _ List.mem_cons_self
  have hyMem : y ∈ front ++ x :: y :: back :=
    List.mem_append_right _ (List.mem_cons_of_mem _ List.mem_cons_self)
  obtain ⟨c, rest, rfl, hlast⟩ := (List.append_assoc front [x] (y :: back) ▸ h :
    Tiling freelist (front ++ [x] ++ y :: back)).exists_next hy
  have hfollows := List.isChain_append_cons_cons.mp h.follows
  have hxy := hfollows.2.1
  rw [Block.Follows, if_neg hx] at hxy
  have hxSized := (Block.sized_iff hx).mp (h.sized x hxMem)
  have hySized := (Block.sized_iff hy).mp (h.sized y hyMem)
  have hxApart := h.apart x hxMem
  have hyApart := h.apart y hyMem
  have hshort := (short_append.mp h.short).2
  simp only [Short, hx, hy, if_false, false_or] at hshort
  simp only [Block.stop] at hxy hxSized hySized hxApart hyApart hseam hstop
  refine @Tiling.replace freelist front (c :: rest) [x, y] [x', y'] h (by simp) (by simp)
    ?_ ?_ ?_ ?_ ?_ ?_
  · intro n hn
    simp only [Short, poolLength, hxKind, hyKind, hx, hy, if_false, false_or, and_true] at hn ⊢
    omega
  · refine List.isChain_cons_cons.mpr ⟨Block.follows_of_stop (hxKind ▸ hx) hseam fun hfree => ?_,
      List.isChain_singleton _⟩
    rw [hyKind]
    exact hxy.2 (hxKind ▸ hfree)
  · intro b hb e he
    obtain rfl := Option.some.inj he
    have hbx := (List.isChain_append.mp hfollows.1).2.2 b hb x rfl
    refine hbx.congr_right haddr fun hfree => ?_
    rw [Block.Follows, if_neg (by rw [hfree]; decide)] at hbx
    rw [hxKind]
    exact hbx.2 hfree
  · intro b hb e he
    obtain rfl := Option.some.inj hb
    obtain rfl := Option.some.inj he
    refine hlast.congr_left hy (hyKind ▸ hy) hstop fun hfree => ?_
    rw [Block.Follows, if_neg hy] at hlast
    exact hlast.2 (hyKind ▸ hfree)
  · intro b hb
    rcases List.mem_cons.mp hb with rfl | hb
    · rw [Block.sized_iff (hxKind ▸ hx), Block.stop]
      omega
    · obtain rfl := List.mem_singleton.mp hb
      rw [Block.sized_iff (hyKind ▸ hy), Block.stop]
      omega
  · intro b hb
    rcases List.mem_cons.mp hb with rfl | hb
    · rw [Block.stop]
      omega
    · obtain rfl := List.mem_singleton.mp hb
      rw [Block.stop]
      omega

end Geometry

/-! ## Headers -/

section Headers

variable {m m' : Bytes} {pf : Int} {xs ys : List Block} {b : Block}

/-- What the header behind the blocks says of the last of them. -/
def freeBefore : Int → List Block → Int
  | pf, [] => pf
  | _, b :: bs => freeBefore b.freeSize bs

theorem freeBefore_snoc : freeBefore pf (xs ++ [b]) = b.freeSize := by
  induction xs generalizing pf with
  | nil => rfl
  | cons x xs ih => exact ih

theorem headers_append : Headers m pf (xs ++ ys) ↔ Headers m pf xs ∧ Headers m (freeBefore pf xs) ys := by
  induction xs generalizing pf with
  | nil => simp [Headers, freeBefore]
  | cons x xs ih => simp [Headers, freeBefore, ih, and_assoc]

theorem Headers.bsize (h : Headers m pf xs) (hb : b ∈ xs) : bsizeOf m b.addr = b.bsize := by
  induction xs generalizing pf with
  | nil => cases hb
  | cons x xs ih =>
    rcases List.mem_cons.mp hb with rfl | hb
    · exact h.2.1
    · exact ih h.2.2 hb

/-- Blocks whose headers stay the same. -/
theorem Headers.congr (h : Headers m pf xs) (hprev : ∀ b ∈ xs, prevfreeOf m' b.addr = prevfreeOf m b.addr)
    (hsize : ∀ b ∈ xs, bsizeOf m' b.addr = bsizeOf m b.addr) : Headers m' pf xs := by
  induction xs generalizing pf with
  | nil => trivial
  | cons x xs ih =>
    refine ⟨(hprev x List.mem_cons_self).trans h.1, (hsize x List.mem_cons_self).trans h.2.1, ?_⟩
    exact ih h.2.2 (fun b hb => hprev b (List.mem_cons_of_mem _ hb))
      (fun b hb => hsize b (List.mem_cons_of_mem _ hb))

/-- A header in bytes that stay the same. -/
theorem header_frame {S : Nat → Prop} {q : Nat} (hq : ∀ x, q ≤ x → x < q + 8 → S x)
    (hm : ∀ x, S x → m' x = m x) : prevfreeOf m' q = prevfreeOf m q ∧ bsizeOf m' q = bsizeOf m q := by
  have hprev : m'.load q = m.load q := Bytes.load_congr fun x hlo hhi => hm x (hq x hlo (by omega))
  have hsize : m'.load (q + 4) = m.load (q + 4) := Bytes.load_congr fun x hlo hhi =>
    hm x (hq x (by omega) (by omega))
  rw [prevfreeOf, bsizeOf, hprev, hsize]
  exact ⟨rfl, rfl⟩

/-- Blocks whose headers are in bytes that stay the same. -/
theorem Headers.frame {S : Nat → Prop} (h : Headers m pf xs)
    (hxs : ∀ b ∈ xs, ∀ x, b.addr ≤ x → x < b.addr + 8 → S x) (hm : ∀ x, S x → m' x = m x) :
    Headers m' pf xs :=
  h.congr (fun b hb => (header_frame (hxs b hb) hm).1) fun b hb => (header_frame (hxs b hb) hm).2

/-- Nodes whose links are in bytes that stay the same. -/
theorem links_frame {S : Nat → Prop} {x : Nat} (hx : ∀ y, x + 8 ≤ y → y < x + 16 → S y)
    (hm : ∀ y, S y → m' y = m y) : flinkOf m' x = flinkOf m x ∧ blinkOf m' x = blinkOf m x := by
  have hflink : m'.load (x + 8) = m.load (x + 8) := Bytes.load_congr fun y hlo hhi =>
    hm y (hx y hlo (by omega))
  have hblink : m'.load (x + 12) = m.load (x + 12) := Bytes.load_congr fun y hlo hhi =>
    hm y (hx y (by omega) (by omega))
  rw [flinkOf, blinkOf, hflink, hblink]
  exact ⟨rfl, rfl⟩

end Headers

end SeCloak
