import SeCloak.Heap.Edit
import SeCloak.Heap.Shrink

/-!
# What `bget` returns (`bget.c:573-753`)

In a well-formed heap `bget` finds a free block that is large enough if there is one. It takes the end
of the block, or all of it, and the heap is well-formed again.
-/

namespace SeCloak
open Misc Code

section Take

variable {m : Bytes} {freelist a z n : Nat} {front back : List Block} {c : Block}
  {Q : Word → Bytes → Prop}

/-- The block before a free one is not free. -/
theorem Tiling.before_free {f : Block} (h : Tiling freelist (front ++ f :: back)) (hf : f.kind = .free) :
    ∀ b ∈ front.getLast?, b.kind ≠ .free := by
  intro b hb hfree
  have hseam := (List.isChain_append.mp h.follows).2.2 b hb f rfl
  rw [Block.Follows, if_neg (by rw [hfree]; simp)] at hseam
  exact hseam.2 hfree hf

/-! ## The end of a free block -/

/-- The memory with the last `n` bytes of the free block at `a` allocated. -/
def withSplit (m : Bytes) (a z n : Nat) : Bytes :=
  (((m.store (a + 4) (BitVec.ofInt 32 (z - n : Int))).store (a + (z - n)) (BitVec.ofInt 32 (z - n : Int))).store
    (a + (z - n) + 4) (BitVec.ofInt 32 (-(n : Int)))).store (a + z) (BitVec.ofInt 32 0)

theorem returns_bgetTake_split (hsize : bsizeOf m a = z) (hn : n + 16 < z) (hz : z < 2 ^ 31) :
    Returns (bgetTake n a) m Q ↔
      prevfreeOf m (a + z) = z ∧ Q (BitVec.ofNat 32 (a + (z - n) + 8)) (withSplit m a z n) := by
  have hread : bsizeOf (m.store (a + 4) (BitVec.ofInt 32 (z - n : Int))) a = (z - n : Int) :=
    bsizeOf_store (by omega) (by omega)
  have hba : offset a (z - n : Int) = a + (z - n) := by
    rw [offset]
    omega
  have hbn : offset (a + (z - n)) n = a + z := by
    rw [offset]
    omega
  simp only [bgetTake, returns_bind_iff, returns_bsize, returns_require_iff, hsize]
  rw [and_iff_right (by omega), if_pos (by simp only [sizeQ, sizeofBhead]; omega)]
  simp only [returns_bind_iff, returns_heapAssert, returns_bsize, returns_prevfree, returns_setBsize,
    returns_setPrevfree, returns_pure_iff, hsize, hba, hbn, hread]
  rfl

theorem bgetTake_splits (h : WellFormed m freelist (front ++ ⟨a, z, .free⟩ :: c :: back))
    (hn : 16 ≤ n) (hz : n + 16 < z) :
    Returns (bgetTake n a) m fun r m' => r.toNat = a + (z - n) + 8 ∧
      WellFormed m' freelist (front ++ ⟨a, z - n, .free⟩ :: ⟨a + (z - n), n, .allocated⟩ :: c :: back) ∧
      ∀ b ∈ front ++ c :: back, b.kind = .allocated → b.SamePayload m m' := by
  have hMem : (⟨a, z, .free⟩ : Block) ∈ front ++ ⟨a, z, .free⟩ :: c :: back :=
    List.mem_append_right _ List.mem_cons_self
  have hcMem : c ∈ front ++ ⟨a, z, .free⟩ :: c :: back :=
    List.mem_append_right _ (List.mem_cons_of_mem _ List.mem_cons_self)
  obtain ⟨hfront, hprevX, hsizeX, hprevC, -⟩ := headers_append.mp h.headers
  have hsizeX : bsizeOf m a = z := hsizeX
  have hfollows := (List.isChain_append_cons_cons.mp h.tiling.follows).2.1
  rw [Block.Follows, if_neg (by simp)] at hfollows
  have hc : c.addr = a + z := hfollows.1
  have hroom := (h.tiling.sized _ hMem).room (by simp)
  have hzLt : z < 2 ^ 31 := hroom.2
  have hstop := h.tiling.sized c hcMem
  have hcPos := hstop.pos
  have hcEnd := hstop.1
  have hprevC : prevfreeOf m (a + z) = z := by
    rw [← hc]
    exact hprevC
  have hwhole : Fills [⟨a, z, .free⟩] a (a + z) := ⟨by simp, rfl, rfl⟩
  have hparts : Fills [⟨a, z - n, .free⟩, ⟨a + (z - n), n, .allocated⟩] a (a + z) := by
    refine ⟨by simp, rfl, by simp, rfl, ?_⟩
    simp only [Fills, Block.stop]
    omega
  have htiling := h.tiling.exchange hwhole hparts (by simp) (by simp) (by simp; omega)
    (List.isChain_cons_cons.mpr ⟨Block.follows_of_stop (by simp) rfl (by simp), List.isChain_singleton _⟩)
    (fun b hb _ _ hfree => absurd hfree (h.tiling.before_free rfl b hb)) (by simp)
  have hbefore := freeBefore_of_last (h.tiling.before_free rfl)
  have hrest : ((z - n : Nat) : Int) = z - n := by omega
  refine (returns_bgetTake_split hsizeX hz hzLt).mpr ⟨hprevC, ?_, ?_⟩
  · rw [BitVec.toNat_ofNat, Nat.mod_eq_of_lt (by omega)]
  refine @WellFormed.edit _ _ _ a _ [⟨a, z, .free⟩] [⟨a, z - n, .free⟩, ⟨a + (z - n), n, .allocated⟩] _ _ h
    htiling h.tiling.split.1 (by omega) ?_ ?_ ?_ ?_
  · unfold withSplit
    exact (((changedIn_store (by omega) (by omega)).trans (changedIn_store (by omega) (by omega))).trans
      (changedIn_store (by omega) (by omega))).trans (changedIn_store (by omega) (by omega))
  · unfold withSplit
    refine ⟨?_, ?_, ?_, ?_, trivial⟩
    · rw [hbefore, prevfreeOf_store_apart (by dsimp only; omega), prevfreeOf_store_apart (by dsimp only; omega),
        prevfreeOf_store_apart (by dsimp only; omega), prevfreeOf_store_apart (by dsimp only; omega), hprevX,
        hbefore]
    · rw [bsizeOf_store_apart (by dsimp only; omega), bsizeOf_store_apart (by dsimp only; omega),
        bsizeOf_store_apart (by dsimp only; omega), bsizeOf_store (by omega) (by omega)]
      exact hrest.symm
    · rw [prevfreeOf_store_apart (by dsimp only; omega), prevfreeOf_store_apart (by dsimp only; omega),
        prevfreeOf_store (by omega) (by omega)]
      exact hrest.symm
    · rw [bsizeOf_store_apart (by dsimp only; omega), bsizeOf_store (by omega) (by omega)]
      rfl
  · rw [hc, withSplit, prevfreeOf_store (by omega) (by omega)]
    rfl
  · obtain ⟨nodes, hperm, hring⟩ := h.list
    refine ⟨nodes, ?_, ring_frame hring fun x hx y hlo hhi => ?_⟩
    · rw [freeAddrs_append, freeAddrs_cons_free rfl] at hperm
      rw [List.cons_append, List.singleton_append, freeAddrs_append, freeAddrs_cons_free rfl,
        freeAddrs_cons_of_ne (by simp)]
      exact hperm
    · have hxMem := (hperm.cons freelist).subset hx
      have hxM := h.tiling.node_apart hxMem hMem
      have hxC := (h.tiling.node_apart hxMem hcMem).resolve_left fun hfree => hfollows.2 rfl hfree.1
      simp only [Block.stop] at hxM hxC hcPos
      rw [withSplit, Bytes.store_apply_of_outside (by omega), Bytes.store_apply_of_outside (by omega),
        Bytes.store_apply_of_outside (by omega), Bytes.store_apply_of_outside (by omega)]

/-! ## A whole free block -/

/-- The memory with the free block at `a` taken out of the free list and allocated. -/
def withTaken (m : Bytes) (a z : Nat) : Bytes :=
  ((withoutNode m a).store (a + 4) (BitVec.ofInt 32 (-(z : Int)))).store (a + z) (BitVec.ofInt 32 0)

theorem returns_bgetTake_whole (hsize : bsizeOf m a = z) (hread : bsizeOf (withoutNode m a) a = z)
    (hn : n ≤ z) (hz : z ≤ n + 16) :
    Returns (bgetTake n a) m Q ↔ prevfreeOf m (a + z) = z ∧
      flinkOf m (blinkOf m a) = a ∧ blinkOf m (flinkOf m a) = a ∧
        Q (BitVec.ofNat 32 (a + 8)) (withTaken m a z) := by
  have hba : offset a z = a + z := rfl
  simp only [bgetTake, returns_bind_iff, returns_bsize, returns_require_iff, hsize]
  rw [and_iff_right (by omega), if_neg (by simp only [sizeQ, sizeofBhead]; omega)]
  simp only [returns_bind_iff, returns_heapAssert, returns_bsize, returns_prevfree, returns_setBsize,
    returns_setPrevfree, returns_pure_iff, returns_unlink, hsize, hba, hread]
  rfl

theorem bgetTake_takes (h : WellFormed m freelist (front ++ ⟨a, z, .free⟩ :: c :: back))
    (hn : n ≤ z) (hz : z ≤ n + 16) :
    Returns (bgetTake n a) m fun r m' => r.toNat = a + 8 ∧
      WellFormed m' freelist (front ++ ⟨a, z, .allocated⟩ :: c :: back) ∧
      ∀ b ∈ front ++ c :: back, b.kind = .allocated → b.SamePayload m m' := by
  have hMem : (⟨a, z, .free⟩ : Block) ∈ front ++ ⟨a, z, .free⟩ :: c :: back :=
    List.mem_append_right _ List.mem_cons_self
  have hcMem : c ∈ front ++ ⟨a, z, .free⟩ :: c :: back :=
    List.mem_append_right _ (List.mem_cons_of_mem _ List.mem_cons_self)
  obtain ⟨hfront, hprevX, hsizeX, hprevC, -⟩ := headers_append.mp h.headers
  have hsizeX : bsizeOf m a = z := hsizeX
  have hfollows := (List.isChain_append_cons_cons.mp h.tiling.follows).2.1
  rw [Block.Follows, if_neg (by simp)] at hfollows
  have hc : c.addr = a + z := hfollows.1
  have hroom := (h.tiling.sized _ hMem).room (by simp)
  have hzLt : z < 2 ^ 31 := hroom.2
  have hzGe : 16 ≤ z := by
    have hle := hroom.1
    simp only [Block.stop] at hle
    omega
  have hcPos := (h.tiling.sized c hcMem).pos
  have hcEnd := (h.tiling.sized c hcMem).1
  have hprevC : prevfreeOf m (a + z) = z := by
    rw [← hc]
    exact hprevC
  have hbefore := freeBefore_of_last (h.tiling.before_free rfl)
  have hwhole : Fills [⟨a, z, .free⟩] a (a + z) := ⟨by simp, rfl, rfl⟩
  have htaken : Fills [⟨a, z, .allocated⟩] a (a + z) := ⟨by simp, rfl, rfl⟩
  have htiling := h.tiling.exchange hwhole htaken (by simp) (by simp) (by simp; omega)
    (List.isChain_singleton _) (fun b hb _ _ hfree => absurd hfree (h.tiling.before_free rfl b hb))
    (by simp)
  obtain ⟨nodes, hperm, hring⟩ := h.list
  have hmem := (hperm.cons freelist).subset
  rw [freeAddrs_append, freeAddrs_cons_free rfl] at hperm
  obtain ⟨ns, ns', rfl⟩ := List.append_of_mem (hperm.symm.subset (by simp : a ∈ _ ++ a :: _))
  have hrest : (ns ++ ns').Perm (freeAddrs (front ++ c :: back)) := by
    rw [freeAddrs_append]
    exact (List.perm_middle.symm.trans (hperm.trans List.perm_middle)).cons_inv
  have hapart : NodesApart (freelist :: (ns ++ a :: ns')) := fun x hx y hy =>
    h.tiling.nodes_apart (hmem hx) (hmem hy)
  obtain ⟨hring', hlinks⟩ := ring_withoutNode hring hapart
  have hnodes : ∀ x ∈ freelist :: (ns ++ ns'), (x + 16 ≤ a ∨ a + z ≤ x) ∧
      (x + 16 ≤ c.addr ∨ c.stop ≤ x) := by
    intro x hx
    have hxMem := hmem (Ring.mem_of_others hx)
    have hxM := h.tiling.node_apart hxMem hMem
    have hxC := (h.tiling.node_apart hxMem hcMem).resolve_left fun hfree => hfollows.2 rfl hfree.1
    have hne := hring.ne_of_others hx
    simp only [Block.stop] at hxM
    exact ⟨hxM.resolve_left fun heq => hne heq.2, hxC⟩
  -- the links that change are those of other nodes
  have hsame : ∀ x, a ≤ x → x < a + z + 8 → withoutNode m a x = m x := by
    intro x hlo hhi
    refine hlinks 0 0 x (Or.inr (Nat.zero_le x)) fun y hy => ?_
    have hy' := hnodes y hy
    simp only [Block.stop] at hy' hcPos
    omega
  have hheaders : ∀ q, a ≤ q → q ≤ a + z → prevfreeOf (withoutNode m a) q = prevfreeOf m q ∧
      bsizeOf (withoutNode m a) q = bsizeOf m q := by
    intro q hlo hhi
    exact header_frame (S := fun x => withoutNode m a x = m x)
      (fun x hx hx' => hsame x (by omega) (by omega)) fun _ hx => hx
  have ha := hheaders a (by omega) (by omega)
  refine (returns_bgetTake_whole hsizeX (ha.2.trans hsizeX) hn hz).mpr
    ⟨hprevC, hring.neighbours.1.2, hring.neighbours.2.2, ?_, ?_⟩
  · rw [BitVec.toNat_ofNat, Nat.mod_eq_of_lt (by omega)]
  refine @WellFormed.edit _ _ _ a _ [⟨a, z, .free⟩] [⟨a, z, .allocated⟩] _ _ h htiling
    h.tiling.split.1 (by omega) ?_ ?_ ?_ ⟨ns ++ ns', ?_, ring_frame hring' fun x hx y hlo hhi => ?_⟩
  · have houter : ChangedIn a (c.addr + 4) (freelist :: freeAddrs (front ++ c :: back)) m (withoutNode m a) :=
      (hlinks a (c.addr + 4)).mono (Nat.le_refl _) (Nat.le_refl _) fun y hy =>
        Or.inl ((hrest.cons freelist).subset hy)
    unfold withTaken
    exact (houter.trans (changedIn_store (by omega) (by omega))).trans (changedIn_store (by omega) (by omega))
  · unfold withTaken
    refine ⟨?_, ?_, trivial⟩
    · rw [prevfreeOf_store_apart (by dsimp only; omega), prevfreeOf_store_apart (by dsimp only; omega)]
      exact ha.1.trans hprevX
    · rw [bsizeOf_store_apart (by dsimp only; omega), bsizeOf_store (by omega) (by omega)]
      rfl
  · rw [hc, withTaken, prevfreeOf_store (by omega) (by omega)]
    rfl
  · rw [List.singleton_append, freeAddrs_append, freeAddrs_cons_of_ne (by simp), ← freeAddrs_append]
    exact hrest
  · have hx' := hnodes x hx
    simp only [Block.stop] at hx' hcPos
    rw [withTaken, Bytes.store_apply_of_outside (by omega), Bytes.store_apply_of_outside (by omega)]

end Take

/-! ## The scan of the free list -/

section Scan

variable {m : Bytes} {freelist b : Nat} {blocks : List Block} {s : Word} {size : Int}
  {Q : Word → Bytes → Prop}

/-- The scan from the head of the rest of the list takes the first block that is large enough. -/
theorem returns_bgetFrom {rest : List Nat} {fuel : Nat}
    (hchain : (rest ++ [freelist]).IsChain (Linked (flinkOf m) (blinkOf m)))
    (hhead : freelist ∉ rest) (hb : b ∈ (rest ++ [freelist]).head?) (hfuel : rest.length < fuel) :
    Returns (bgetFrom freelist size fuel b) m Q ↔
      match rest.find? fun x => size ≤ bsizeOf m x with
      | some x => Returns (bgetTake size x) m Q
      | none => Q 0 m := by
  induction rest generalizing b fuel with
  | nil =>
    obtain rfl := Option.some.inj hb
    cases fuel with
    | zero => cases hfuel
    | succ fuel =>
      rw [bgetFrom, if_pos rfl]
      exact returns_pure_iff
  | cons x rest ih =>
    obtain rfl := Option.some.inj hb
    obtain ⟨hne, hrest⟩ := not_or.mp (List.mem_cons.not.mp hhead)
    cases fuel with
    | zero => cases hfuel
    | succ fuel =>
      rw [bgetFrom, if_neg (Ne.symm hne), returns_bind_iff, returns_bsize]
      by_cases hfits : size ≤ bsizeOf m x
      · rw [if_pos hfits, List.find?_cons, decide_eq_true hfits]
      · rw [if_neg hfits, List.find?_cons, decide_eq_false hfits, returns_bind_iff, returns_flink]
        rw [List.cons_append, List.isChain_cons] at hchain
        refine ih hchain.2 hrest ?_ (Nat.lt_of_succ_lt_succ hfuel)
        obtain ⟨y, hy, -⟩ := Ring.exists_head? freelist rest
        rw [hy, (hchain.1 y hy).1]
        rfl

/-- What a request that needs a block of `n` bytes does: it fails because every free block is smaller,
or takes all or the end of a free block. -/
def Allocates (freelist : Nat) (m : Bytes) (blocks : List Block) (n : Nat) (r : Word) (m' : Bytes) : Prop :=
  (r = 0 ∧ m' = m ∧ ∀ b ∈ blocks, b.kind = .free → b.size < n) ∨
    ∃ front a z back, blocks = front ++ ⟨a, z, .free⟩ :: back ∧ n ≤ z ∧
      (∀ b ∈ front ++ back, b.kind = .allocated → b.SamePayload m m') ∧
      ((z ≤ n + 16 ∧ r.toNat = a + sizeofBhead ∧
          WellFormed m' freelist (front ++ ⟨a, z, .allocated⟩ :: back)) ∨
        (n + 16 < z ∧ r.toNat = a + (z - n) + sizeofBhead ∧
          WellFormed m' freelist (front ++ ⟨a, z - n, .free⟩ :: ⟨a + (z - n), n, .allocated⟩ :: back)))

/-- The size of the block for a request of at most `2 ^ 31 - 16` bytes. -/
theorem blockSize_toInt (hpos : 0 < s.toNat) (hlt : s.toNat + 16 ≤ 2 ^ 31) :
    (BitVec.ofInt 32 (blockSize s.toInt)).toInt = blockBytes s.toNat := by
  have hs : s.toInt = s.toNat := BitVec.toInt_eq_toNat_of_lt (by omega)
  rw [hs, blockSize_eq s.isLt]
  refine toInt_ofInt_of_fits (by omega) ?_
  unfold blockBytes
  simp only [sizeQ, sizeQuant, sizeofBhead]
  omega

/-- `bget` serves a request if and only if some free block is large enough. -/
theorem bget_allocates {fuel : Nat} (h : WellFormed m freelist blocks) (hpos : 0 < s.toNat)
    (hlt : s.toNat + 16 ≤ 2 ^ 31) (hfuel : (freeAddrs blocks).length < fuel) :
    Returns (bget freelist fuel s) m (Allocates freelist m blocks (blockBytes s.toNat)) := by
  obtain ⟨nodes, hperm, hring⟩ := h.list
  have hs : s.toInt = s.toNat := BitVec.toInt_eq_toNat_of_lt (by omega)
  have hnonneg : 0 < s.toInt := by omega
  have hround : max s.toInt sizeQ + (sizeQuant - 1) < 2 ^ 31 := by
    rw [hs]
    simp only [sizeQ, sizeQuant]
    omega
  have hchain : (nodes ++ [freelist]).IsChain (Linked (flinkOf m) (blinkOf m)) := hring.linked.tail
  have hfirst : flinkOf m freelist ∈ (nodes ++ [freelist]).head? := by
    obtain ⟨y, hy, -⟩ := Ring.exists_head? freelist nodes
    have hlinked := hring.linked
    rw [List.isChain_cons] at hlinked
    rw [(hlinked.1 y hy).1]
    exact hy
  have hlen : nodes.length < fuel := hperm.length_eq ▸ hfuel
  -- the size in the header of a node is that of its block
  have hblock : ∀ x ∈ nodes, ∃ z, (⟨x, z, .free⟩ : Block) ∈ blocks ∧ bsizeOf m x = z := by
    intro x hx
    obtain ⟨⟨a, z, kind⟩, hb, hkind, rfl⟩ := mem_freeAddrs.mp (hperm.subset hx)
    obtain rfl : kind = .free := hkind
    exact ⟨z, hb, h.headers.bsize hb⟩
  simp only [bget, returns_bind_iff, returns_heapAssert, returns_require_iff, returns_flink]
  rw [and_iff_right hnonneg, and_iff_right hround, blockSize_toInt hpos hlt,
    returns_bgetFrom hchain (List.nodup_cons.mp hring.nodup).1 hfirst hlen]
  split
  · rename_i x hfind
    obtain ⟨z, hb, hsize⟩ := hblock x (List.mem_of_find?_eq_some hfind)
    have hfits : blockBytes s.toNat ≤ z := by
      have hx := List.find?_some hfind
      rw [hsize, decide_eq_true_iff] at hx
      omega
    obtain ⟨front, back, rfl⟩ := List.append_of_mem hb
    obtain ⟨c, rest, rfl, -⟩ := h.tiling.exists_next (by simp)
    by_cases hroom : z ≤ blockBytes s.toNat + 16
    · refine (bgetTake_takes h hfits hroom).imp ?_
      rintro r m' ⟨hr, hwell, hsame⟩
      exact Or.inr ⟨front, x, z, c :: rest, rfl, hfits, hsame, Or.inl ⟨hroom, hr, hwell⟩⟩
    · refine (bgetTake_splits h (blockBytes_ge _) (Nat.not_le.mp hroom)).imp ?_
      rintro r m' ⟨hr, hwell, hsame⟩
      exact Or.inr ⟨front, x, z, c :: rest, rfl, hfits, hsame, Or.inr ⟨Nat.not_le.mp hroom, hr, hwell⟩⟩
  · rename_i hnone
    refine Or.inl ⟨rfl, rfl, fun b hb hkind => ?_⟩
    have hx := hperm.symm.subset (mem_freeAddrs.mpr ⟨b, hb, hkind, rfl⟩)
    have hsmall := List.find?_eq_none.mp hnone b.addr hx
    have hsize : bsizeOf m b.addr = b.size := by
      rw [h.headers.bsize hb, Block.bsize, hkind]
    rw [hsize, decide_eq_true_iff] at hsmall
    omega

end Scan

end SeCloak
