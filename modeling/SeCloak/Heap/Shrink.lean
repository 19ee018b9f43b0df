import SeCloak.Heap.Release

/-!
# The end of a block (`bget_malloc.c:426-499`)

What a buffer does not need at its end is given to the free block behind it, or becomes a free block of
its own. Nothing is released that has no room for the links of the free list.
-/

namespace SeCloak
open Misc Code

/-! ## Sizes -/

/-- The bytes of a block for a buffer of `t` bytes. -/
def blockBytes (t : Nat) : Nat := (max t sizeQ + (sizeQuant - 1)) / sizeQuant * sizeQuant + sizeofBhead

theorem blockSize_eq {t : Nat} (ht : t < 2 ^ 32) : blockSize t = blockBytes t := by
  unfold blockSize blockBytes
  simp only [sizeQ, sizeQuant, sizeofBhead]
  omega

theorem blockBytes_ge (t : Nat) : 16 ≤ blockBytes t := by
  unfold blockBytes
  simp only [sizeQ, sizeQuant, sizeofBhead]
  omega

theorem le_blockBytes (t : Nat) : t + 8 ≤ blockBytes t := by
  unfold blockBytes
  simp only [sizeQ, sizeQuant, sizeofBhead]
  omega

/-! ## Replacing a node -/

/-- The memory with the block `nbf` in the place of `bn` in the free list. -/
def withReplaced (m : Bytes) (nbf bn : Nat) : Bytes :=
  let m := m.store (nbf + 12) (BitVec.ofNat 32 (blinkOf m bn))
  let m := m.store (nbf + 8) (BitVec.ofNat 32 (flinkOf m bn))
  let m := m.store (blinkOf m nbf + 8) (BitVec.ofNat 32 nbf)
  m.store (flinkOf m nbf + 12) (BitVec.ofNat 32 nbf)

section Replace

variable {m : Bytes} {freelist nbf bn : Nat}

theorem withReplaced_eq (hbn : nbf + 16 ≤ bn)
    (hlast : blinkOf m bn + 16 ≤ nbf ∨ nbf + 16 ≤ blinkOf m bn) :
    withReplaced m nbf bn =
      (((m.store (nbf + 12) (BitVec.ofNat 32 (blinkOf m bn))).store (nbf + 8)
        (BitVec.ofNat 32 (flinkOf m bn))).store (blinkOf m bn + 8) (BitVec.ofNat 32 nbf)).store
        (flinkOf m bn + 12) (BitVec.ofNat 32 nbf) := by
  have hflink : flinkOf (m.store (nbf + 12) (BitVec.ofNat 32 (blinkOf m bn))) bn = flinkOf m bn :=
    flinkOf_store_apart (by omega)
  have hback : blinkOf ((m.store (nbf + 12) (BitVec.ofNat 32 (blinkOf m bn))).store (nbf + 8)
      (BitVec.ofNat 32 (flinkOf m bn))) nbf = blinkOf m bn := by
    rw [blinkOf_store_apart (by omega), blinkOf_store blinkOf_lt]
  have hforth : flinkOf (((m.store (nbf + 12) (BitVec.ofNat 32 (blinkOf m bn))).store (nbf + 8)
      (BitVec.ofNat 32 (flinkOf m bn))).store (blinkOf m bn + 8) (BitVec.ofNat 32 nbf)) nbf =
      flinkOf m bn := by
    rw [flinkOf_store_apart (by omega), flinkOf_store flinkOf_lt]
  rw [withReplaced, hflink, hback, hforth]

theorem ring_withReplaced {front back : List Nat}
    (hring : Ring (flinkOf m) (blinkOf m) freelist (front ++ bn :: back))
    (hnodes : ∀ x ∈ freelist :: (front ++ bn :: back), ∀ y ∈ freelist :: (front ++ bn :: back),
      x = y ∨ x + 16 ≤ y ∨ y + 16 ≤ x)
    (hnbf : ∀ x ∈ freelist :: (front ++ bn :: back), x + 16 ≤ nbf ∨ nbf + 16 ≤ x)
    (hbn : nbf + 16 ≤ bn) (hlt : nbf < 2 ^ 32) :
    Ring (flinkOf (withReplaced m nbf bn)) (blinkOf (withReplaced m nbf bn)) freelist
      (front ++ nbf :: back) := by
  obtain ⟨⟨hprevMem, -⟩, hnextMem, -⟩ := hring.neighbours
  have hprevNbf := hnbf _ hprevMem
  have hnextNbf := hnbf _ hnextMem
  have hseam := hnodes _ hprevMem _ hnextMem
  rw [withReplaced_eq hbn hprevNbf]
  refine hring.replace ?_ ?_ ?_ ?_ ?_ ?_ ?_
  · intro hmem
    have hself := hnbf nbf hmem
    omega
  · rw [flinkOf_store_apart (by omega), flinkOf_store_apart (by omega), flinkOf_store flinkOf_lt]
  · rw [blinkOf_store_apart (by omega), blinkOf_store_apart (by omega), blinkOf_store_apart (by omega),
      blinkOf_store blinkOf_lt]
  · rw [flinkOf_store_apart (by omega), flinkOf_store hlt]
  · rw [blinkOf_store hlt]
  · intro x hx hne
    have hxNbf := hnbf x (Ring.mem_of_others hx)
    have hxPrev := hnodes x (Ring.mem_of_others hx) _ hprevMem
    have hxNext := hnodes x (Ring.mem_of_others hx) _ hnextMem
    rw [flinkOf_store_apart (by omega), flinkOf_store_apart (by omega), flinkOf_store_apart (by omega),
      flinkOf_store_apart (by omega)]
  · intro x hx hne
    have hxNbf := hnbf x (Ring.mem_of_others hx)
    have hxPrev := hnodes x (Ring.mem_of_others hx) _ hprevMem
    have hxNext := hnodes x (Ring.mem_of_others hx) _ hnextMem
    rw [blinkOf_store_apart (by omega), blinkOf_store_apart (by omega), blinkOf_store_apart (by omega),
      blinkOf_store_apart (by omega)]

theorem withReplaced_apply {x : Nat} (hbn : nbf + 16 ≤ bn)
    (hlast : blinkOf m bn + 16 ≤ nbf ∨ nbf + 16 ≤ blinkOf m bn) (hnbf : x < nbf + 8 ∨ nbf + 16 ≤ x)
    (hprev : x < blinkOf m bn + 8 ∨ blinkOf m bn + 16 ≤ x)
    (hnext : x < flinkOf m bn + 8 ∨ flinkOf m bn + 16 ≤ x) : withReplaced m nbf bn x = m x := by
  rw [withReplaced_eq hbn hlast, Bytes.store_apply_of_outside (by omega),
    Bytes.store_apply_of_outside (by omega), Bytes.store_apply_of_outside (by omega),
    Bytes.store_apply_of_outside (by omega)]

end Replace

/-! ## The end of a block -/

/-- The memory with the header of a free block that takes in what is in front of it. -/
def withMerged (m : Bytes) (nbf bn bnn : Nat) (size : Int) : Bytes :=
  let m := m.store nbf (BitVec.ofInt 32 0)
  let m := m.store (nbf + 4) (BitVec.ofInt 32 (bsizeOf m bn + size))
  m.store bnn (BitVec.ofInt 32 (prevfreeOf m bnn + size))

section After

variable {m : Bytes} {freelist a z t n : Nat} {front back : List Block} {y c : Block}
  {Q : Unit → Bytes → Prop}

theorem returns_brelAfter {m₁ m₂ : Bytes} (ht : t < 2 ^ 31) (hz : z < 2 ^ 31)
    (hsize : bsizeOf m a = -(z : Int))
    (hm₁ : m₁ = m.store (a + 4) (BitVec.ofInt 32 (-(blockBytes t : Int))))
    (hm₂ : m₂ = withMerged m₁ (a + blockBytes t) (a + z) (offset (a + z) (bsizeOf m₁ (a + z)))
      (z - blockBytes t : Int)) :
    Returns (brelAfter freelist (a + 8) t) m Q ↔ blockBytes t ≤ z ∧
      if z < blockBytes t + 16 then Q () m
      else if 0 < bsizeOf m₁ (a + z) then
        prevfreeOf m₁ (a + z) = 0 ∧
        prevfreeOf m₁ (offset (a + z) (bsizeOf m₁ (a + z))) = bsizeOf m₁ (a + z) ∧
        flinkOf m₂ (blinkOf m₂ (a + z)) = a + z ∧ blinkOf m₂ (flinkOf m₂ (a + z)) = a + z ∧
          Q () (withReplaced m₂ (a + blockBytes t) (a + z))
      else Returns (createFreeBlock freelist (a + blockBytes t) (z - blockBytes t : Int) (a + z)) m₁ Q := by
  subst hm₂ hm₁
  have ha : a + 8 - sizeofBhead = a := Nat.add_sub_cancel a 8
  have hfits : blockSize t = blockBytes t := blockSize_eq (by omega)
  have hnbf : offset a (blockBytes t : Int) = a + blockBytes t := by
    rw [offset]
    omega
  have hbn : offset a (z : Int) = a + z := by
    rw [offset]
    omega
  simp only [brelAfter, returns_bind_iff, returns_heapAssert, returns_bsize]
  rw [ha, hfits, hsize, Int.neg_neg]
  have hle : (blockBytes t : Int) ≤ z ↔ blockBytes t ≤ z := by omega
  rw [hle]
  refine and_congr_right fun hle => ?_
  have hsmall : (z - blockBytes t : Int) % 2 ^ 32 < (sizeQ : Int) + sizeofBhead ↔
      z < blockBytes t + 16 := by
    simp only [sizeQ, sizeofBhead]
    omega
  by_cases hroom : z < blockBytes t + 16
  · rw [if_pos hroom, if_pos (hsmall.mpr hroom), returns_pure_iff]
  · rw [if_neg hroom, if_neg (fun h => hroom (hsmall.mp h))]
    simp only [returns_bind_iff, returns_bsize, returns_setBsize]
    rw [hsize, Int.neg_neg, hnbf, hbn]
    split
    · simp only [returns_bind_iff, returns_heapAssert, returns_bsize, returns_prevfree, returns_flink,
        returns_blink, returns_setBsize, returns_setPrevfree, returns_setFlink, returns_setBlink]
      rfl
    · rfl

/-- The memory `m'` is that of a well-formed heap whose block at `a` has at least `n` bytes; the blocks
before it are the same ones, and every allocated block behind it is still there. -/
def Shrunk (m : Bytes) (freelist : Nat) (front back : List Block) (a n : Nat) (m' : Bytes) : Prop :=
  ∃ z back', WellFormed m' freelist (front ++ ⟨a, z, .allocated⟩ :: back') ∧ n ≤ z ∧
    Kept m (front ++ back) m' (front ++ back')

/-- What is known of the other blocks of a heap. -/
theorem Tiling.beside (h : Tiling freelist (front ++ ⟨a, z, .allocated⟩ :: back)) :
    (∀ b ∈ front, b.addr + 8 ≤ b.stop ∧ b.stop ≤ a) ∧
      (∀ b ∈ back, b.addr + 8 ≤ b.stop ∧ a + z ≤ b.addr) ∧
      ∀ x ∈ freelist :: freeAddrs (front ++ back), x + 16 ≤ a ∨ a + z ≤ x := by
  have hxMem : (⟨a, z, .allocated⟩ : Block) ∈ front ++ ⟨a, z, .allocated⟩ :: back :=
    List.mem_append_right _ List.mem_cons_self
  have hsplit := h.split
  refine ⟨fun b hb => ?_, fun b hb => ?_, fun x hx => ?_⟩
  · exact ⟨(h.sized b (List.mem_append_left _ hb)).pos, hsplit.1 b hb⟩
  · exact ⟨(h.sized b (List.mem_append_right _ (List.mem_cons_of_mem _ hb))).pos, hsplit.2 b hb⟩
  · refine (h.node_apart (b := ⟨a, z, .allocated⟩) ?_ hxMem).resolve_left (by simp)
    rw [freeAddrs_append, freeAddrs_cons_of_ne (by simp), ← freeAddrs_append]
    exact hx

/-- A change of the size in the header of a block leaves all other headers and the links alone. -/
theorem WellFormed.setSize (h : WellFormed m freelist (front ++ ⟨a, z, .allocated⟩ :: back))
    (hn : 16 ≤ n) (hz : n ≤ z) :
    Headers (m.store (a + 4) (BitVec.ofInt 32 (-(n : Int)))) 0 (front ++ [⟨a, n, .allocated⟩]) ∧
      Headers (m.store (a + 4) (BitVec.ofInt 32 (-(n : Int)))) 0 back ∧
      ∃ nodes, nodes.Perm (freeAddrs (front ++ back)) ∧
        Ring (flinkOf (m.store (a + 4) (BitVec.ofInt 32 (-(n : Int)))))
          (blinkOf (m.store (a + 4) (BitVec.ofInt 32 (-(n : Int))))) freelist nodes := by
  obtain ⟨hfront, hprevX, -, hback⟩ := headers_append.mp h.headers
  obtain ⟨hbefore, hbehind, hnode⟩ := h.tiling.beside
  obtain ⟨nodes, hperm, hring⟩ := h.list
  rw [freeAddrs_append, freeAddrs_cons_of_ne (by simp), ← freeAddrs_append] at hperm
  have hmem := (hperm.cons freelist).subset
  have hzLt : z < 2 ^ 31 :=
    ((h.tiling.sized _ (List.mem_append_right _ List.mem_cons_self)).room (by simp)).2
  have hsame : ∀ x, x < a + 4 ∨ a + 8 ≤ x → m.store (a + 4) (BitVec.ofInt 32 (-(n : Int))) x = m x :=
    fun x hx => Bytes.store_apply_of_outside hx
  refine ⟨headers_append.mpr ⟨?_, ?_, ?_, trivial⟩, ?_, nodes, hperm, ?_⟩
  · refine hfront.frame (fun b hb x hlo hhi => ?_) hsame
    have hle := hbefore b hb
    omega
  · rw [prevfreeOf_store_apart (by dsimp only; omega)]
    exact hprevX
  · rw [bsizeOf_store (by omega) (by omega)]
    rfl
  · refine hback.frame (fun b hb x hlo hhi => ?_) hsame
    have hle := hbehind b hb
    omega
  · have hlinks : ∀ x ∈ freelist :: nodes,
        flinkOf (m.store (a + 4) (BitVec.ofInt 32 (-(n : Int)))) x = flinkOf m x ∧
          blinkOf (m.store (a + 4) (BitVec.ofInt 32 (-(n : Int)))) x = blinkOf m x := by
      intro x hx
      have hxX := hnode x (hmem hx)
      exact links_frame (fun y hlo hhi => by omega) hsame
    exact hring.congr (fun x hx => (hlinks x hx).1) fun x hx => (hlinks x hx).2

/-- The end of a block before an allocated one becomes a block of its own. -/
theorem createFreeBlock_end (h : WellFormed m freelist (front ++ ⟨a, z, .allocated⟩ :: y :: back))
    (hy : y.kind ≠ .free) (hn : 16 ≤ n) (hz : n + 16 ≤ z) :
    Returns (createFreeBlock freelist (a + n) (z - n : Int) (a + z))
      (m.store (a + 4) (BitVec.ofInt 32 (-(n : Int))))
      fun _ m' => Shrunk m freelist front (y :: back) a n m' := by
  obtain ⟨hfront, hback, hlist⟩ := h.setSize hn (by omega)
  obtain ⟨hbefore, hbehind, -⟩ := h.tiling.beside
  have hcut := h.tiling.cut hn hz
  obtain ⟨c, rest, hc, hfollows⟩ := h.tiling.exists_next (by simp)
  obtain ⟨rfl, rfl⟩ := List.cons.inj hc
  rw [Block.Follows, if_neg (by simp)] at hfollows
  have haddr : y.addr = a + z := hfollows.1
  have hrest : ((z - n : Nat) : Int) = z - n := by omega
  have htiling : Tiling freelist ((front ++ [⟨a, n, .allocated⟩]) ++
      ⟨a + n, z - n, .allocated⟩ :: y :: back) := by
    rw [List.append_assoc]
    exact hcut
  have hlast : ∀ b ∈ (front ++ [(⟨a, n, .allocated⟩ : Block)]).getLast?, b.kind ≠ .free := by
    intro b hb
    rw [List.getLast?_concat] at hb
    obtain rfl := Option.some.inj hb
    simp
  have hreturns := createFreeBlock_returns htiling hlast hy hfront hback (by
    rw [List.append_assoc, List.singleton_append, freeAddrs_append,
      @freeAddrs_cons_of_ne ⟨a, n, .allocated⟩ (by simp), ← freeAddrs_append]
    exact hlist)
  rw [hrest, haddr] at hreturns
  refine hreturns.imp ?_
  rintro - m' ⟨hwell, hpayload⟩
  rw [List.append_assoc, List.singleton_append] at hwell
  refine ⟨n, ⟨a + n, z - n, .free⟩ :: y :: back, hwell, Nat.le_refl _, fun b hb hkind => ⟨?_, ?_⟩⟩
  · rcases List.mem_append.mp hb with hb | hb
    · exact List.mem_append_left _ hb
    · exact List.mem_append_right _ (List.mem_cons_of_mem _ hb)
  · intro x hlo hhi
    have hin : b ∈ front ++ [⟨a, n, .allocated⟩] ++ y :: back := by
      rcases List.mem_append.mp hb with hb | hb
      · exact List.mem_append_left _ (List.mem_append_left _ hb)
      · exact List.mem_append_right _ hb
    have hbeside : b.stop ≤ a ∨ a + z ≤ b.addr := by
      rcases List.mem_append.mp hb with hb | hb
      · exact Or.inl (hbefore b hb).2
      · exact Or.inr (hbehind b hb).2
    rw [hpayload b hin hkind x hlo hhi]
    exact Bytes.store_apply_of_outside (by omega)

/-- A boundary between two blocks moves into the first one. -/
theorem Tiling.moveDown (h : Tiling freelist (front ++ ⟨a, z, .allocated⟩ :: y :: c :: back))
    (hy : y.kind = .free) (hn : 16 ≤ n) (hz : n ≤ z) :
    Tiling freelist (front ++ ⟨a, n, .allocated⟩ :: ⟨a + n, y.size + (z - n), .free⟩ :: c :: back) := by
  have hyMem : y ∈ front ++ ⟨a, z, .allocated⟩ :: y :: c :: back :=
    List.mem_append_right _ (List.mem_cons_of_mem _ List.mem_cons_self)
  have hyKind : y.kind ≠ .sentinel := by
    rw [hy]
    decide
  have hxy := (List.isChain_append_cons_cons.mp h.follows).2.1
  rw [Block.Follows, if_neg (by simp)] at hxy
  have haddr : y.addr = a + z := hxy.1
  have hyRoom := ((Block.sized_iff hyKind).mp (h.sized y hyMem)).2.1
  refine h.moveBoundary (by simp) hyKind rfl hy.symm rfl rfl ?_ hn ?_
  · change a + n + (y.size + (z - n)) = y.addr + y.size
    omega
  · change 16 ≤ y.size + (z - n)
    omega

/-- The bytes that a merged free block is made of: its header and links, the header behind it and the
two links to it. -/
theorem withMerged_eq {nbf bn bnn : Nat} {size : Int} (hbn : nbf + 8 ≤ bn) (hbnn : nbf + 8 ≤ bnn) :
    withMerged m nbf bn bnn size =
      ((m.store nbf (BitVec.ofInt 32 0)).store (nbf + 4) (BitVec.ofInt 32 (bsizeOf m bn + size))).store
        bnn (BitVec.ofInt 32 (prevfreeOf m bnn + size)) := by
  have hsize : bsizeOf (m.store nbf (BitVec.ofInt 32 0)) bn = bsizeOf m bn :=
    bsizeOf_store_apart (by omega)
  have hprev : prevfreeOf ((m.store nbf (BitVec.ofInt 32 0)).store (nbf + 4)
      (BitVec.ofInt 32 (bsizeOf m bn + size))) bnn = prevfreeOf m bnn := by
    rw [prevfreeOf_store_apart (by omega), prevfreeOf_store_apart (by omega)]
  rw [withMerged, hsize, hprev]

theorem withMerged_apply {nbf bn bnn x : Nat} {size : Int} (hbn : nbf + 8 ≤ bn) (hbnn : nbf + 8 ≤ bnn)
    (hnbf : x < nbf ∨ nbf + 8 ≤ x) (hx : x < bnn ∨ bnn + 4 ≤ x) :
    withMerged m nbf bn bnn size x = m x := by
  rw [withMerged_eq hbn hbnn, Bytes.store_apply_of_outside (by omega),
    Bytes.store_apply_of_outside (by omega), Bytes.store_apply_of_outside (by omega)]

/-- A node that is in the list in some place. -/
theorem perm_replace {nodes xs ys : List Nat} {o n : Nat} (h : nodes.Perm (xs ++ o :: ys)) :
    ∃ ns ns', nodes = ns ++ o :: ns' ∧ (ns ++ n :: ns').Perm (xs ++ n :: ys) := by
  obtain ⟨ns, ns', rfl⟩ := List.append_of_mem (h.symm.subset (by simp : o ∈ xs ++ o :: ys))
  refine ⟨ns, ns', rfl, ?_⟩
  have hrest : (ns ++ ns').Perm (xs ++ ys) :=
    (List.perm_middle.symm.trans (h.trans List.perm_middle)).cons_inv
  exact List.perm_middle.trans ((hrest.cons n).trans List.perm_middle.symm)

/-- What is known of the addresses around an allocated block and the free one behind it. -/
structure Behind (freelist a z n : Nat) (front back : List Block) (y c : Block) : Prop where
  yAddr : y.addr = a + z
  yRoom : 16 ≤ y.size
  cAddr : c.addr = a + z + y.size
  cKind : c.kind ≠ .free
  cPos : c.addr + 8 ≤ c.stop
  grown : y.size + (z - n) < 2 ^ 31
  before : ∀ b ∈ front, b.addr + 8 ≤ b.stop ∧ b.stop ≤ a
  behind : ∀ b ∈ back, b.addr + 8 ≤ b.stop ∧ c.stop ≤ b.addr
  node : ∀ x ∈ freelist :: freeAddrs (front ++ y :: c :: back), (x + 16 ≤ a ∨ a + z ≤ x) ∧
    ∀ b ∈ front ++ c :: back, (b.kind = .free ∧ x = b.addr) ∨ x + 16 ≤ b.addr ∨ b.stop ≤ x
  nodes : ∀ x ∈ freelist :: freeAddrs (front ++ y :: c :: back),
    ∀ x' ∈ freelist :: freeAddrs (front ++ y :: c :: back), x = x' ∨ x + 16 ≤ x' ∨ x' + 16 ≤ x

theorem Tiling.behind (h : Tiling freelist (front ++ ⟨a, z, .allocated⟩ :: y :: c :: back))
    (hy : y.kind = .free) (hn : 16 ≤ n) (hz : n ≤ z) : Behind freelist a z n front back y c := by
  obtain ⟨hbefore, hbehind, hnode⟩ := h.beside
  have hblocks : freeAddrs (front ++ ⟨a, z, .allocated⟩ :: y :: c :: back) =
      freeAddrs (front ++ y :: c :: back) := by
    rw [freeAddrs_append, freeAddrs_append, freeAddrs_cons_of_ne (by simp)]
  have hothers : ∀ b ∈ front ++ c :: back, b ∈ front ++ ⟨a, z, .allocated⟩ :: y :: c :: back := by
    intro b hb
    rcases List.mem_append.mp hb with hb | hb
    · exact List.mem_append_left _ hb
    · exact List.mem_append_right _ (List.mem_cons_of_mem _ (List.mem_cons_of_mem _ hb))
  have hyMem : y ∈ front ++ ⟨a, z, .allocated⟩ :: y :: c :: back :=
    List.mem_append_right _ (List.mem_cons_of_mem _ List.mem_cons_self)
  have hcMem := hothers c (List.mem_append_right _ List.mem_cons_self)
  have hfollows := List.isChain_append_cons_cons.mp h.follows
  have hxy := hfollows.2.1
  have hyc := (List.isChain_cons_cons.mp hfollows.2.2).1
  rw [Block.Follows, if_neg (by simp)] at hxy
  rw [Block.Follows, if_neg (by rw [hy]; simp)] at hyc
  have hyAddr : y.addr = a + z := hxy.1
  have hyRoom := (h.sized y hyMem).room (by rw [hy]; decide)
  have hgrown := (((h.moveDown hy hn hz).sized _ (List.mem_append_right _ (List.mem_cons_of_mem _
    List.mem_cons_self))).room (by simp)).2
  have hsplit := (List.append_assoc front [⟨a, z, .allocated⟩, y] (c :: back) ▸ h :
    Tiling freelist (front ++ [⟨a, z, .allocated⟩, y] ++ c :: back)).split
  refine ⟨hyAddr, ?_, ?_, hyc.2 hy, (h.sized c hcMem).pos, hgrown, hbefore, fun b hb => ⟨?_, ?_⟩,
    fun x hx => ⟨hnode x hx, fun b hb => ?_⟩, fun x hx x' hx' => ?_⟩
  · have hroom := hyRoom.1
    simp only [Block.stop] at hroom
    omega
  · rw [hyc.1, Block.stop, hyAddr]
  · exact (h.sized b (hothers b (List.mem_append_right _ (List.mem_cons_of_mem _ hb)))).pos
  · exact hsplit.2 b hb
  · rw [← hblocks] at hx
    exact h.node_apart hx (hothers b hb)
  · rw [← hblocks] at hx hx'
    exact h.nodes_apart hx hx'

end After

section Merge

variable {m : Bytes} {freelist a z n : Nat} {front back : List Block} {y c : Block}

/-- The links of the free list are in none of the headers that are written first. -/
theorem Behind.links (h : Behind freelist a z n front back y c) (hz : n + 16 ≤ z) {x : Nat}
    (hx : x ∈ freelist :: freeAddrs (front ++ y :: c :: back)) :
    flinkOf (withMerged m (a + n) (a + z) c.addr (z - n : Int)) x = flinkOf m x ∧
      blinkOf (withMerged m (a + n) (a + z) c.addr (z - n : Int)) x = blinkOf m x := by
  have hcAddr := h.cAddr
  have hcPos := h.cPos
  obtain ⟨hxX, hxOthers⟩ := h.node x hx
  have hxC := (hxOthers c (List.mem_append_right _ List.mem_cons_self)).resolve_left fun hfree =>
    h.cKind hfree.1
  refine links_frame (S := fun y => (y < a + n ∨ a + n + 8 ≤ y) ∧ (y < c.addr ∨ c.addr + 4 ≤ y))
    (fun y hlo hhi => ⟨by omega, by omega⟩) fun y hy => ?_
  exact withMerged_apply (by omega) (by omega) hy.1 hy.2

/-- The headers after the end of a block has been merged with the free block behind it. -/
theorem Behind.headers_merged (h : Behind freelist a z n front back y c) (hn : 16 ≤ n)
    (hz : n + 16 ≤ z) (hfront : Headers m 0 (front ++ [⟨a, n, .allocated⟩]))
    (hsizeY : bsizeOf m (a + z) = y.size) (hprevC : prevfreeOf m c.addr = y.size)
    (hsizeC : bsizeOf m c.addr = c.bsize) (hback : Headers m c.freeSize back) :
    Headers (withMerged m (a + n) (a + z) c.addr (z - n : Int)) 0
      ((front ++ [⟨a, n, .allocated⟩]) ++ ⟨a + n, y.size + (z - n), .free⟩ :: c :: back) := by
  have hcAddr := h.cAddr
  have hcPos := h.cPos
  have hgrown := h.grown
  have hsame : ∀ x, (x < a + n ∨ a + n + 8 ≤ x) ∧ (x < c.addr ∨ c.addr + 4 ≤ x) →
      withMerged m (a + n) (a + z) c.addr (z - n : Int) x = m x := fun x hx =>
    withMerged_apply (by omega) (by omega) hx.1 hx.2
  have hmerged : (y.size : Int) + (z - n) = ((y.size + (z - n) : Nat) : Int) := by omega
  refine headers_append.mpr ⟨?_, ?_, ?_, ?_, ?_, ?_⟩
  · refine hfront.frame (fun b hb x hlo hhi => ?_) hsame
    rcases List.mem_append.mp hb with hb | hb
    · have hle := h.before b hb
      omega
    · obtain rfl := List.mem_singleton.mp hb
      dsimp only at hlo hhi
      omega
  · rw [freeBefore_snoc, withMerged_eq (by omega) (by omega),
      prevfreeOf_store_apart (by dsimp only; omega), prevfreeOf_store_apart (by dsimp only; omega),
      prevfreeOf_store (by omega) (by omega)]
    rfl
  · rw [withMerged_eq (by omega) (by omega), hsizeY, hmerged, bsizeOf_store_apart (by dsimp only; omega),
      bsizeOf_store (by omega) (by omega)]
    rfl
  · rw [withMerged_eq (by omega) (by omega), hprevC, hmerged, prevfreeOf_store (by omega) (by omega)]
    rfl
  · rw [withMerged_eq (by omega) (by omega), bsizeOf_store_apart (by omega),
      bsizeOf_store_apart (by omega), bsizeOf_store_apart (by omega)]
    exact hsizeC
  · refine hback.frame (fun b hb x hlo hhi => ?_) hsame
    have hle := h.behind b hb
    omega

/-- The links to a merged block are in no header. -/
theorem Behind.headers_replaced (h : Behind freelist a z n front back y c) (hz : n + 16 ≤ z)
    (hprev : blinkOf m (a + z) ∈ freelist :: freeAddrs (front ++ y :: c :: back))
    (hnext : flinkOf m (a + z) ∈ freelist :: freeAddrs (front ++ y :: c :: back)) {r : Block}
    (hr : r.addr = a + n)
    (hheaders : Headers m 0 ((front ++ [⟨a, n, .allocated⟩]) ++ r :: c :: back)) :
    Headers (withReplaced m (a + n) (a + z)) 0 ((front ++ [⟨a, n, .allocated⟩]) ++ r :: c :: back) := by
  have hcAddr := h.cAddr
  obtain ⟨hprevX, hprevOthers⟩ := h.node _ hprev
  obtain ⟨hnextX, hnextOthers⟩ := h.node _ hnext
  refine hheaders.frame (S := fun x => (x < a + n + 8 ∨ a + n + 16 ≤ x) ∧
    (x < blinkOf m (a + z) + 8 ∨ blinkOf m (a + z) + 16 ≤ x) ∧
    (x < flinkOf m (a + z) + 8 ∨ flinkOf m (a + z) + 16 ≤ x)) ?_ fun x hx =>
      withReplaced_apply (by omega) (by omega) hx.1 hx.2.1 hx.2.2
  intro b hb x hlo hhi
  -- a block of the heap before, or one in the place of the allocated block
  have hcases : (b ∈ front ++ c :: back ∧ (b.stop ≤ a ∨ c.addr ≤ b.addr) ∧ b.addr + 8 ≤ b.stop) ∨
      (b.addr = a ∨ b.addr = a + n) := by
    rcases List.mem_append.mp hb with hb | hb
    · rcases List.mem_append.mp hb with hb | hb
      · have hle := h.before b hb
        exact Or.inl ⟨List.mem_append_left _ hb, Or.inl hle.2, hle.1⟩
      · obtain rfl := List.mem_singleton.mp hb
        exact Or.inr (Or.inl rfl)
    · rcases List.mem_cons.mp hb with rfl | hb
      · exact Or.inr (Or.inr hr)
      · refine Or.inl ⟨List.mem_append_right _ hb, ?_⟩
        rcases List.mem_cons.mp hb with rfl | hb
        · exact ⟨Or.inr (Nat.le_refl _), h.cPos⟩
        · have hle := h.behind b hb
          have hcPos := h.cPos
          exact ⟨Or.inr (by omega), hle.1⟩
  rcases hcases with ⟨hmem, hplace, hpos⟩ | hplace
  · have hbPrev := hprevOthers b hmem
    have hbNext := hnextOthers b hmem
    refine ⟨by omega, by omega, by omega⟩
  · refine ⟨by omega, by omega, by omega⟩

/-- The end of a block before a free one is given to that one. -/
theorem withReplaced_end (h : WellFormed m freelist (front ++ ⟨a, z, .allocated⟩ :: y :: c :: back))
    (hy : y.kind = .free) (hn : 16 ≤ n) (hz : n + 16 ≤ z) {m₁ m₂ : Bytes}
    (hm₁ : m₁ = m.store (a + 4) (BitVec.ofInt 32 (-(n : Int))))
    (hm₂ : m₂ = withMerged m₁ (a + n) (a + z) c.addr (z - n : Int)) :
    (flinkOf m₂ (blinkOf m₂ (a + z)) = a + z ∧ blinkOf m₂ (flinkOf m₂ (a + z)) = a + z) ∧
      Shrunk m freelist front (y :: c :: back) a n (withReplaced m₂ (a + n) (a + z)) := by
  obtain ⟨hfront, ⟨hprevY, hsizeY, hprevC, hsizeC, hback⟩, nodes, hperm, hring⟩ :=
    h.setSize hn (by omega)
  have hB := h.tiling.behind hy hn (by omega)
  have hcAddr := hB.cAddr
  have hcPos := hB.cPos
  rw [← hm₁] at hfront hprevY hsizeY hprevC hsizeC hback hring
  rw [hB.yAddr, Block.bsize, hy] at hsizeY
  rw [Block.freeSize, if_pos hy] at hprevC
  have hmem := (hperm.cons freelist).subset
  have hfree : freeAddrs (front ++ y :: c :: back) =
      freeAddrs front ++ (a + z) :: freeAddrs (c :: back) := by
    rw [freeAddrs_append, freeAddrs_cons_free hy, hB.yAddr]
  rw [hfree] at hperm
  obtain ⟨ns, ns', rfl, hreplaced⟩ := @perm_replace _ _ _ _ (a + n) hperm
  have hring₂ : Ring (flinkOf m₂) (blinkOf m₂) freelist (ns ++ (a + z) :: ns') := by
    rw [hm₂]
    exact hring.congr (fun x hx => (hB.links hz (hmem hx)).1) fun x hx => (hB.links hz (hmem hx)).2
  obtain ⟨⟨hprevMem, hnextPrev⟩, hnextMem, hprevNext⟩ := hring₂.neighbours
  have hprev : blinkOf m₂ (a + z) ∈ freelist :: freeAddrs (front ++ y :: c :: back) := hmem hprevMem
  have hnext : flinkOf m₂ (a + z) ∈ freelist :: freeAddrs (front ++ y :: c :: back) := hmem hnextMem
  have hheaders := hB.headers_merged hn hz hfront hsizeY hprevC hsizeC hback
  rw [← hm₂] at hheaders
  have hheaders' := hB.headers_replaced hz hprev hnext rfl hheaders
  rw [List.append_assoc, List.singleton_append] at hheaders'
  refine ⟨⟨hnextPrev, hprevNext⟩, n, ⟨a + n, y.size + (z - n), .free⟩ :: c :: back,
    ⟨h.tiling.moveDown hy hn (by omega), hheaders', ns ++ (a + n) :: ns', ?_, ?_⟩, Nat.le_refl _, ?_⟩
  · rw [freeAddrs_append, freeAddrs_cons_of_ne (by simp), freeAddrs_cons_free rfl]
    exact hreplaced
  · refine ring_withReplaced hring₂ (fun x hx x' hx' => hB.nodes x (hmem hx) x' (hmem hx')) ?_
      (by omega) ?_
    · intro x hx
      have hxX := (hB.node x (hmem hx)).1
      omega
    · have hstop := (h.tiling.sized _ (List.mem_append_right _ List.mem_cons_self)).1
      simp only [Block.stop] at hstop
      omega
  · intro b hb hkind
    have hb' : b ∈ front ++ c :: back := by
      rcases List.mem_append.mp hb with hb | hb
      · exact List.mem_append_left _ hb
      · rcases List.mem_cons.mp hb with rfl | hb
        · rw [hy] at hkind
          cases hkind
        · exact List.mem_append_right _ hb
    refine ⟨?_, fun x hlo hhi => ?_⟩
    · rcases List.mem_append.mp hb' with hb | hb
      · exact List.mem_append_left _ hb
      · exact List.mem_append_right _ (List.mem_cons_of_mem _ hb)
    · have hsizeof : sizeofBhead = 8 := rfl
      have hbPrev := ((hB.node _ hprev).2 b hb').resolve_left (by simp [hkind])
      have hbNext := ((hB.node _ hnext).2 b hb').resolve_left (by simp [hkind])
      have hprevX := (hB.node _ hprev).1
      have hplace : b.stop ≤ a ∨ c.addr + 8 ≤ x := by
        rcases List.mem_append.mp hb' with hb | hb
        · exact Or.inl (hB.before b hb).2
        · rcases List.mem_cons.mp hb with rfl | hb
          · exact Or.inr hlo
          · have hle := hB.behind b hb
            omega
      rw [withReplaced_apply (by omega) (by omega) (by omega) (by omega) (by omega), hm₂,
        withMerged_apply (by omega) (by omega) (by omega) (by omega), hm₁,
        Bytes.store_apply_of_outside (by omega)]

/-- What a buffer of `t` bytes does not need of its block is released. -/
theorem brelAfter_shrinks {t : Nat} (h : WellFormed m freelist (front ++ ⟨a, z, .allocated⟩ :: back))
    (ht : t < 2 ^ 31) (hz : blockBytes t ≤ z) :
    Returns (brelAfter freelist (a + 8) t) m fun _ m' =>
      Shrunk m freelist front back a (blockBytes t) m' := by
  have hxMem : (⟨a, z, .allocated⟩ : Block) ∈ front ++ ⟨a, z, .allocated⟩ :: back :=
    List.mem_append_right _ List.mem_cons_self
  have hzLt : z < 2 ^ 31 := ((h.tiling.sized _ hxMem).room (by simp)).2
  obtain ⟨-, -, hsize, -⟩ := headers_append.mp h.headers
  have hsize : bsizeOf m a = -(z : Int) := hsize
  have hn := blockBytes_ge t
  obtain ⟨m₁, hm₁⟩ : ∃ m₁, m₁ = m.store (a + 4) (BitVec.ofInt 32 (-(blockBytes t : Int))) := ⟨_, rfl⟩
  refine (returns_brelAfter ht hzLt hsize hm₁ rfl).mpr ⟨hz, ?_⟩
  split
  · exact ⟨z, back, h, hz, Kept.refl m _⟩
  · rename_i hroom
    obtain ⟨y, rest, rfl, hfollows⟩ := h.tiling.exists_next (by simp)
    rw [Block.Follows, if_neg (by simp)] at hfollows
    have hyAddr : y.addr = a + z := hfollows.1
    obtain ⟨-, hheaders, -⟩ := h.setSize hn hz
    rw [← hm₁] at hheaders
    have hsizeY := hheaders.bsize List.mem_cons_self
    have hprevY := hheaders.1
    rw [hyAddr] at hsizeY hprevY
    have hyMem : y ∈ front ++ ⟨a, z, .allocated⟩ :: y :: rest :=
      List.mem_append_right _ (List.mem_cons_of_mem _ List.mem_cons_self)
    by_cases hy : y.kind = .free
    · obtain ⟨c, rest', rfl, hyc⟩ := (List.append_assoc front [⟨a, z, .allocated⟩] (y :: rest) ▸ h.tiling :
        Tiling freelist (front ++ [⟨a, z, .allocated⟩] ++ y :: rest)).exists_next (by rw [hy]; simp)
      rw [Block.Follows, if_neg (by rw [hy]; simp)] at hyc
      have hbsize : y.bsize = y.size := by
        rw [Block.bsize, hy]
      rw [hbsize] at hsizeY
      have hprevC : prevfreeOf m₁ c.addr = y.size := by
        rw [hheaders.2.2.1, Block.freeSize, if_pos hy]
      have hroomY := ((h.tiling.sized y hyMem).room (by rw [hy]; simp)).1
      simp only [Block.stop] at hroomY
      have hcAddr : offset (a + z) (y.size : Int) = c.addr := by
        rw [hyc.1, Block.stop, hyAddr, offset]
        omega
      obtain ⟨m₂, hm₂⟩ : ∃ m₂, m₂ = withMerged m₁ (a + blockBytes t) (a + z) c.addr
        (z - blockBytes t : Int) := ⟨_, rfl⟩
      obtain ⟨⟨hnext, hprev⟩, hshrunk⟩ := withReplaced_end h hy hn (by omega) hm₁ hm₂
      rw [hsizeY, hcAddr, ← hm₂, if_pos (by omega)]
      exact ⟨hprevY, hprevC, hnext, hprev, hshrunk⟩
    · have hneg := Block.bsize_neg hy (h.tiling.sized y hyMem).pos
      rw [hsizeY, if_neg (by omega), hm₁]
      exact createFreeBlock_end h hy hn (by omega)

end Merge

end SeCloak
