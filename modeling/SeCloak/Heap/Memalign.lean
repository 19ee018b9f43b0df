import SeCloak.Heap.MallocProps
import SeCloak.Heap.Shrink
import SeCloak.Mm.VaSpace

/-!
# Aligned buffers (`bget_malloc.c:501-566`)

`raw_memalign` asks for a buffer that is long enough wherever it starts, and releases its front and its
end. A front behind an allocated block becomes a block of its own. Then the header behind it gets a size
only, and the assertion in `create_free_block` is about a word that the payload had there.
-/

namespace SeCloak
open Misc Code

/-! ## The start of the buffer -/

/-- The least distance of at least 16 bytes from `u` to a multiple of `n`. -/
def distance (n u : Nat) : Nat := 16 + (n - (u + 16) % n) % n

section Start

variable {n u : Nat} {hdrSize ftrSize alignment size b : Word}

theorem distance_ge : 16 ≤ distance n u := Nat.le_add_right _ _

theorem distance_lt (hn : 0 < n) : distance n u < n + 16 := by
  have hlt : (n - (u + 16) % n) % n < n := Nat.mod_lt _ hn
  rw [distance]
  omega

/-- It is the distance to the next multiple, or the one after that. -/
theorem distance_eq (hn : 16 ≤ n) :
    distance n u = if n - u % n < 16 then n - u % n + n else n - u % n := by
  have hlt : u % n < n := Nat.mod_lt _ (by omega)
  have hsum : (u + 16) % n = (u % n + 16) % n := (Nat.mod_add_mod u n 16).symm
  rw [distance, hsum]
  split
  · rename_i hnear
    have hwrap : (u % n + 16) % n = u % n + 16 - n := by
      rw [Nat.mod_eq_sub_mod (by omega), Nat.mod_eq_of_lt (by omega)]
    rw [hwrap, Nat.mod_eq_of_lt (by omega)]
    omega
  · rename_i hfar
    rcases Nat.lt_or_ge (u % n + 16) n with hless | hge
    · rw [Nat.mod_eq_of_lt hless, Nat.mod_eq_of_lt (by omega)]
      omega
    · have hexact : u % n + 16 = n := by omega
      rw [hexact, Nat.mod_self, Nat.sub_zero, Nat.mod_self]
      omega

theorem dvd_add_distance (hn : 0 < n) : n ∣ u + distance n u := by
  have hlt : (u + 16) % n < n := Nat.mod_lt _ hn
  have hmod := Nat.div_add_mod (u + 16) n
  rw [distance]
  rcases Nat.eq_zero_or_pos ((u + 16) % n) with hzero | hpos
  · rw [hzero, Nat.sub_zero, Nat.mod_self]
    exact Nat.dvd_of_mod_eq_zero hzero
  · rw [Nat.mod_eq_of_lt (by omega)]
    have hnext : u + (16 + (n - (u + 16) % n)) = n * ((u + 16) / n + 1) := by
      rw [Nat.mul_add, Nat.mul_one]
      omega
    rw [hnext]
    exact Nat.dvd_mul_right _ _

/-- The test of `raw_memalign` on a pointer. -/
theorem and_sub_one_ne_zero (hpow : isPowerOfTwo alignment = true) {v : Word} :
    v &&& (alignment - 1) ≠ 0 ↔ ¬ alignment.toNat ∣ v.toNat := by
  obtain ⟨k, hk, rfl⟩ := isPowerOfTwo_iff.mp hpow
  have hmask : (BitVec.twoPow 32 k - 1).toNat = 2 ^ k - 1 := by
    have hpos : 0 < 2 ^ k := Nat.two_pow_pos k
    have hlt : 2 ^ k < 2 ^ 32 := Nat.pow_lt_pow_right (by decide) hk
    have hone : (1 : Word).toNat = 1 := rfl
    rw [BitVec.toNat_sub, BitVec.toNat_twoPow_of_lt hk, hone]
    omega
  have hand : (v &&& (BitVec.twoPow 32 k - 1)).toNat = v.toNat % 2 ^ k := by
    rw [BitVec.toNat_and, hmask, Nat.and_two_pow_sub_one_eq_mod]
  rw [BitVec.toNat_twoPow_of_lt hk, Nat.dvd_iff_mod_eq_zero, ← hand, ne_eq, ← BitVec.toNat_inj]
  rfl

/-- Where the buffer starts after its front has been released. -/
theorem toNat_alignedStart (hpow : isPowerOfTwo alignment = true) (hn : 16 ≤ alignment.toNat)
    (hfits : b.toNat + hdrSize.toNat + alignment.toNat + 16 < 2 ^ 32) :
    (alignedStart hdrSize alignment b).toNat =
      b.toNat + distance alignment.toNat (b.toNat + hdrSize.toNat) := by
  obtain ⟨k, hk, rfl⟩ := isPowerOfTwo_iff.mp hpow
  have htwo := BitVec.toNat_twoPow_of_lt hk
  generalize hal : BitVec.twoPow 32 k = alignment at *
  have hmod := Nat.div_add_mod (b.toNat + hdrSize.toNat) alignment.toNat
  have hlt : (b.toNat + hdrSize.toNat) % alignment.toNat < alignment.toNat := Nat.mod_lt _ (by omega)
  have hsum : (b + hdrSize + alignment).toNat = b.toNat + hdrSize.toNat + alignment.toNat := by
    rw [BitVec.toNat_add_of_lt (by rw [BitVec.toNat_add_of_lt (by omega)]; omega),
      BitVec.toNat_add_of_lt (by omega)]
  have hround : (roundDown (b + hdrSize + alignment) alignment).toNat =
      b.toNat + hdrSize.toNat - (b.toNat + hdrSize.toNat) % alignment.toNat + alignment.toNat := by
    rw [← hal, toNat_roundDown _ hk, hal, hsum, ← htwo, Nat.add_div_right _ (by omega), Nat.succ_mul,
      Nat.mul_comm]
    omega
  have hstart : (roundDown (b + hdrSize + alignment) alignment - hdrSize).toNat =
      b.toNat + (alignment.toNat - (b.toNat + hdrSize.toNat) % alignment.toNat) := by
    rw [BitVec.toNat_sub, hround]
    omega
  have hnear : roundDown (b + hdrSize + alignment) alignment - hdrSize - b <
      BitVec.ofNat 32 (sizeQ + sizeofBhead) ↔
      alignment.toNat - (b.toNat + hdrSize.toNat) % alignment.toNat < 16 := by
    have hsixteen : (BitVec.ofNat 32 (sizeQ + sizeofBhead)).toNat = 16 := rfl
    rw [BitVec.lt_def, BitVec.toNat_sub, hstart, hsixteen]
    omega
  change (if roundDown (b + hdrSize + alignment) alignment - hdrSize - b <
      BitVec.ofNat 32 (sizeQ + sizeofBhead) then
    roundDown (b + hdrSize + alignment) alignment - hdrSize + alignment
    else roundDown (b + hdrSize + alignment) alignment - hdrSize).toNat = _
  rw [distance_eq hn]
  split
  · rename_i h
    have hless := hnear.mp h
    rw [if_pos hless, BitVec.toNat_add, hstart]
    omega
  · rename_i h
    rw [if_neg fun hlt => h (hnear.mpr hlt), hstart]

end Start

/-! ## The front and the end -/

section Release

variable {m : Bytes} {freelist a d z t : Nat} {front back : List Block} {Q : Unit → Bytes → Prop}

/-- The last of the blocks is free if the header behind them says so. -/
theorem exists_free_of_freeBefore (h : freeBefore 0 front ≠ 0) :
    ∃ front' f, front = front' ++ [f] ∧ f.kind = .free := by
  induction front using List.reverseRecOn with
  | nil => exact absurd rfl h
  | append_singleton xs f _ =>
    refine ⟨xs, f, rfl, ?_⟩
    rw [freeBefore_snoc, Block.freeSize] at h
    by_contra hkind
    exact h (if_neg hkind)

/-- The front of a block is released if there is a free block before it, or if `prevfree` of the header
behind it is zero. -/
theorem brelBefore_returns (h : WellFormed m freelist (front ++ ⟨a, z, .allocated⟩ :: back))
    (hd : 16 ≤ d) (hz : d + 16 ≤ z) (hword : prevfreeOf m a ≠ 0 ∨ prevfreeOf m (a + d) = 0) :
    Returns (brelBefore freelist (a + 8) (a + d + 8)) m fun _ m' =>
      ∃ front', WellFormed m' freelist (front' ++ ⟨a + d, z - d, .allocated⟩ :: back) ∧
        Kept m (front ++ back) m' (front' ++ back) := by
  obtain ⟨-, hprev, -, -⟩ := headers_append.mp h.headers
  by_cases hbefore : freeBefore 0 front = 0
  · have hlast : ∀ b ∈ front.getLast?, b.kind ≠ .free := by
      intro b hb hkind
      obtain ⟨xs, rfl⟩ := List.getLast?_eq_some_iff.mp hb
      rw [freeBefore_snoc, Block.freeSize, if_pos hkind] at hbefore
      have hroom := ((h.tiling.sized b (by simp)).room (by rw [hkind]; decide)).1
      rw [Block.stop] at hroom
      omega
    have hzero : prevfreeOf m (a + d) = 0 := hword.resolve_left fun hne => hne (hprev.trans hbefore)
    refine (brelBefore_splits h hlast hd hz hzero).imp ?_
    rintro - m' ⟨hwell, hsame⟩
    refine ⟨front ++ [⟨a, d, .free⟩], ?_, fun b hb hkind => ⟨?_, hsame b hb hkind⟩⟩
    · rw [List.append_assoc]
      exact hwell
    · rcases List.mem_append.mp hb with hb | hb
      · exact List.mem_append_left _ (List.mem_append_left _ hb)
      · exact List.mem_append_right _ hb
  · obtain ⟨front, f, rfl, hf⟩ := exists_free_of_freeBefore hbefore
    rw [List.append_assoc, List.singleton_append] at h
    refine (brelBefore_grows h hf hd hz).imp ?_
    rintro - m' ⟨hwell, hsame⟩
    refine ⟨front ++ [{ f with size := f.size + d }], ?_, fun b hb hkind => ?_⟩
    · rw [List.append_assoc]
      exact hwell
    · have hb' : b ∈ front ++ back := by
        rcases List.mem_append.mp hb with hb | hb
        · rcases List.mem_append.mp hb with hb | hb
          · exact List.mem_append_left _ hb
          · obtain rfl := List.mem_singleton.mp hb
            rw [hf] at hkind
            cases hkind
        · exact List.mem_append_right _ hb
      refine ⟨?_, hsame b hb'⟩
      rcases List.mem_append.mp hb' with hb | hb
      · exact List.mem_append_left _ (List.mem_append_left _ hb)
      · exact List.mem_append_right _ hb

/-- A run that releases the front of a block has read such headers, and has set the size of the rest. -/
theorem brelBefore_needs (h : WellFormed m freelist (front ++ ⟨a, z, .allocated⟩ :: back))
    (hd : 16 ≤ d) (hz : d + 8 ≤ z)
    (hreturns : Returns (brelBefore freelist (a + 8) (a + d + 8)) m Q) :
    (prevfreeOf m a ≠ 0 ∨ prevfreeOf m (a + d) = 0) ∧
      ∃ m', Q () m' ∧ bsizeOf m' (a + d) = -(z - d : Int) := by
  obtain ⟨-, -, hsize, -⟩ := headers_append.mp h.headers
  have hsize : bsizeOf m a = -(z : Int) := hsize
  have hxMem : (⟨a, z, .allocated⟩ : Block) ∈ front ++ ⟨a, z, .allocated⟩ :: back :=
    List.mem_append_right _ List.mem_cons_self
  have hzLt : z < 2 ^ 31 := ((h.tiling.sized _ hxMem).room (by simp)).2
  have hhead := h.tiling.apart _ hxMem
  simp only [Block.stop] at hhead
  obtain ⟨-, hcases⟩ := returns_brelBefore.mp hreturns
  rw [hsize, Int.neg_neg] at hcases
  split at hcases
  · rename_i hprev
    obtain ⟨-, hQ⟩ := hcases
    refine ⟨Or.inl hprev, _, hQ, ?_⟩
    rw [withGrown, bsizeOf_store (by omega) (by omega)]
  · obtain ⟨-, -, hword, -, -, hQ⟩ := returns_createFreeBlock.mp hcases
    rw [prevfreeOf_store_apart (by omega)] at hword
    refine ⟨Or.inr hword, _, hQ, ?_⟩
    -- the last node of the free list is apart from the block, so that its link is not in the header
    obtain ⟨nodes, hperm, hring⟩ := h.list
    have hlastMem := (hperm.cons freelist).subset hring.prev_head.1
    have hlast := (h.tiling.node_apart hlastMem hxMem).resolve_left (by simp)
    simp only [Block.stop] at hlast
    have hblink : blinkOf (withFreeHeader (m.store (a + d + 4) (BitVec.ofInt 32 (-(z - d : Int)))) a
        (a + d) d) freelist = blinkOf m freelist := by
      rw [withFreeHeader, blinkOf_store_apart (by omega), blinkOf_store_apart (by omega),
        blinkOf_store_apart (by omega), blinkOf_store_apart (by omega)]
    rw [(header_withNode (by omega) (by omega) (by omega) (by omega)).2, withFreeHeader,
      bsizeOf_store_apart (by omega), bsizeOf_store_apart (by omega), bsizeOf_store_apart (by omega),
      bsizeOf_store (by omega) (by omega)]

/-- Both parts of a block that a buffer of `t` bytes does not need are released. -/
theorem released (h : WellFormed m freelist (front ++ ⟨a, z, .allocated⟩ :: back)) (hd : 16 ≤ d)
    (ht : t < 2 ^ 31) (hword : prevfreeOf m a ≠ 0 ∨ prevfreeOf m (a + d) = 0)
    (hfits : d + blockBytes t ≤ z) :
    Returns (brelBefore freelist (a + 8) (a + d + 8)) m fun _ m' =>
      Returns (brelAfter freelist (a + d + 8) t) m' fun _ m' =>
        ∃ front' z' back', WellFormed m' freelist (front' ++ ⟨a + d, z', .allocated⟩ :: back') ∧
          blockBytes t ≤ z' ∧ Kept m (front ++ back) m' (front' ++ back') := by
  have hge := blockBytes_ge t
  refine (brelBefore_returns h hd (by omega) hword).imp ?_
  rintro - m₁ ⟨front', hwell, hkept⟩
  refine (brelAfter_shrinks hwell ht (by omega)).imp ?_
  rintro - m₂ ⟨z', back', hwell', hle, hkept'⟩
  exact ⟨front', z', back', hwell', hle, hkept.trans hkept'⟩

/-- There is no other way to release both parts. -/
theorem released_needs (h : WellFormed m freelist (front ++ ⟨a, z, .allocated⟩ :: back)) (hd : 16 ≤ d)
    (hz : d + 8 ≤ z) (ht : t < 2 ^ 31)
    (hreturns : Returns (brelBefore freelist (a + 8) (a + d + 8)) m fun _ m' =>
      Returns (brelAfter freelist (a + d + 8) t) m' Q) :
    (prevfreeOf m a ≠ 0 ∨ prevfreeOf m (a + d) = 0) ∧ d + blockBytes t ≤ z := by
  have hxMem : (⟨a, z, .allocated⟩ : Block) ∈ front ++ ⟨a, z, .allocated⟩ :: back :=
    List.mem_append_right _ List.mem_cons_self
  have hzLt : z < 2 ^ 31 := ((h.tiling.sized _ hxMem).room (by simp)).2
  obtain ⟨hword, m', hafter, hsize⟩ := brelBefore_needs h hd hz hreturns
  have hrest : bsizeOf m' (a + d) = -((z - d : Nat) : Int) := by
    rw [hsize]
    omega
  have hle := ((returns_brelAfter ht (by omega) hrest rfl rfl).mp hafter).1
  exact ⟨hword, by omega⟩

end Release

/-! ## Requests -/

/-- `NULL`, or a buffer of at least `n` bytes, in a well-formed heap that keeps its allocated blocks. -/
def Gives (freelist : Nat) (m : Bytes) (blocks : List Block) (n : Nat) (b : Word) (m' : Bytes) : Prop :=
  (b = 0 ∧ ∃ blocks', WellFormed m' freelist blocks' ∧ Kept m blocks m' blocks') ∨
    ∃ front a z back, b.toNat = a + sizeofBhead ∧ n + sizeofBhead ≤ z ∧
      WellFormed m' freelist (front ++ ⟨a, z, .allocated⟩ :: back) ∧ Kept m blocks m' (front ++ back)

/-- The front of the buffer `b` can be released: there is a free block before it, or the word where the
next header gets its `prevfree` is zero. The rest has room for the sizes. -/
def Releasable (m : Bytes) (hdrSize ftrSize alignment size b : Word) : Prop :=
  (prevfreeOf m (b.toNat - sizeofBhead) ≠ 0 ∨
    prevfreeOf m
      (b.toNat - sizeofBhead + distance alignment.toNat (b.toNat + hdrSize.toNat)) = 0) ∧
  (distance alignment.toNat (b.toNat + hdrSize.toNat) +
    blockBytes (hdrSize.toNat + ftrSize.toNat + size.toNat) : Int) ≤ -bsizeOf m (b.toNat - sizeofBhead)

section Requests

variable {B : Bget} {freelist a : Nat} {m m₁ : Bytes} {hdrSize ftrSize alignment size s b : Word}
  {Q : Word → Bytes → Prop}

theorem returns_ask {alloc : Bytes → Except Fault (Word × Bytes)} (h : alloc m = .ok (b, m₁)) :
    Returns (ask s alloc) m Q ↔ Q b m₁ := by
  have hrun : Runs (ask s alloc) m [s] b m₁ := congrArg (Outcome.mk [s]) h
  exact ⟨fun hreturns => hreturns.of_runs hrun, fun hQ => ⟨[s], b, m₁, hrun, hQ⟩⟩

/-- What `raw_memalign` does where the sum of the sizes does not wrap. -/
theorem returns_rawMemalign (hpow : isPowerOfTwo alignment = true) (hal : sizeQuant < alignment.toNat)
    (hs : s.toNat = hdrSize.toNat + ftrSize.toNat + alignment.toNat + size.toNat + sizeQ + sizeofBhead)
    (hcall : B.bget s m = .ok (b, m₁)) :
    Returns (rawMemalign B freelist hdrSize ftrSize alignment size) m Q ↔
      if b = 0 then Q 0 m₁
      else Returns (do
        let b ← releaseFront freelist hdrSize ftrSize alignment size s b
        brelAfter freelist b.toNat (hdrSize + ftrSize + size).toInt
        pure b) m₁ Q := by
  have hlt := s.isLt
  simp only [sizeQ, sizeofBhead] at hs
  have hsum : s = hdrSize + ftrSize + alignment + size + BitVec.ofNat 32 sizeQ +
      BitVec.ofNat 32 sizeofBhead := by
    apply BitVec.eq_of_toNat_eq
    simp only [BitVec.toNat_add, BitVec.toNat_ofNat, sizeQ, sizeofBhead]
    omega
  have hquant : ¬ alignment ≤ BitVec.ofNat 32 sizeQuant := by
    rw [BitVec.le_def, BitVec.toNat_ofNat]
    simp only [sizeQuant] at hal ⊢
    omega
  have hwrap : ¬ (s < alignment ∨ s < size) := by
    rw [BitVec.lt_def, BitVec.lt_def]
    omega
  rw [rawMemalign, if_neg (by rw [hpow]; decide), if_neg hquant, ← hsum]
  dsimp only
  rw [if_neg hwrap, returns_bind_iff, returns_ask hcall]
  split
  · rename_i hnull
    rw [returns_pure_iff, hnull]
  · rfl

theorem toNat_sizes_of_lt (h : hdrSize.toNat + ftrSize.toNat + size.toNat < 2 ^ 32) :
    (hdrSize + ftrSize + size).toNat = hdrSize.toNat + ftrSize.toNat + size.toNat := by
  rw [toNat_sizes, Nat.mod_eq_of_lt h]

/-- A buffer that is aligned keeps its front. -/
theorem returns_aligned (hpow : isPowerOfTwo alignment = true)
    (hfits : b.toNat + hdrSize.toNat < 2 ^ 32)
    (hsizes : hdrSize.toNat + ftrSize.toNat + size.toNat < 2 ^ 31)
    (hdvd : alignment.toNat ∣ b.toNat + hdrSize.toNat) :
    Returns (do
        let b ← releaseFront freelist hdrSize ftrSize alignment size s b
        brelAfter freelist b.toNat (hdrSize + ftrSize + size).toInt
        pure b) m Q ↔
      Returns (brelAfter freelist b.toNat (hdrSize.toNat + ftrSize.toNat + size.toNat : Nat)) m
        fun _ m' => Q b m' := by
  have htest : ¬ ((b + hdrSize) &&& (alignment - 1) ≠ 0) := by
    rw [and_sub_one_ne_zero hpow, BitVec.toNat_add_of_lt hfits, not_not]
    exact hdvd
  have hint : (hdrSize + ftrSize + size).toInt =
      ((hdrSize.toNat + ftrSize.toNat + size.toNat : Nat) : Int) := by
    rw [BitVec.toInt_eq_toNat_of_lt (by rw [toNat_sizes_of_lt (by omega)]; omega),
      toNat_sizes_of_lt (by omega)]
  rw [releaseFront, if_neg htest, hint]
  simp only [returns_bind_iff, returns_pure_iff]

/-- The front of any other buffer is released first. -/
theorem returns_unaligned (hpow : isPowerOfTwo alignment = true) (hal : 16 ≤ alignment.toNat)
    (hs : s.toNat = hdrSize.toNat + ftrSize.toNat + alignment.toNat + size.toNat + 16)
    (hfits : b.toNat + s.toNat < 2 ^ 32)
    (hsizes : hdrSize.toNat + ftrSize.toNat + size.toNat < 2 ^ 31) (hb : b.toNat = a + 8)
    (hdvd : ¬ alignment.toNat ∣ b.toNat + hdrSize.toNat) :
    Returns (do
        let b ← releaseFront freelist hdrSize ftrSize alignment size s b
        brelAfter freelist b.toNat (hdrSize + ftrSize + size).toInt
        pure b) m Q ↔
      Returns (brelBefore freelist (a + 8)
          (a + distance alignment.toNat (b.toNat + hdrSize.toNat) + 8)) m fun _ m' =>
        Returns (brelAfter freelist (a + distance alignment.toNat (b.toNat + hdrSize.toNat) + 8)
          (hdrSize.toNat + ftrSize.toNat + size.toNat : Nat)) m' fun _ m' =>
            Q (alignedStart hdrSize alignment b) m' := by
  have htest : (b + hdrSize) &&& (alignment - 1) ≠ 0 := by
    rw [and_sub_one_ne_zero hpow, BitVec.toNat_add_of_lt (by omega)]
    exact hdvd
  have hint : (hdrSize + ftrSize + size).toInt =
      ((hdrSize.toNat + ftrSize.toNat + size.toNat : Nat) : Int) := by
    rw [BitVec.toInt_eq_toNat_of_lt (by rw [toNat_sizes_of_lt (by omega)]; omega),
      toNat_sizes_of_lt (by omega)]
  have hstart := @toNat_alignedStart hdrSize alignment b hpow hal (by omega)
  have hless : distance alignment.toNat (b.toNat + hdrSize.toNat) < alignment.toNat + 16 :=
    distance_lt (by omega)
  have hplace : b.toNat + distance alignment.toNat (b.toNat + hdrSize.toNat) =
      a + distance alignment.toNat (b.toNat + hdrSize.toNat) + 8 := by omega
  have hassert : alignedStart hdrSize alignment b + hdrSize + ftrSize + size ≤ b + s := by
    rw [BitVec.le_def]
    simp only [BitVec.toNat_add]
    omega
  rw [releaseFront, if_pos htest, hint]
  simp only [returns_bind_iff, returns_heapAssert, returns_pure_iff]
  rw [hstart, hplace, hb, and_iff_right hassert]

end Requests

section Memalign

variable {B : Bget} {freelist a z : Nat} {blocks front back : List Block} {m m₁ : Bytes}
  {hdrSize ftrSize alignment size s b : Word}

/-- What is known of the buffer that `bget` gives. -/
theorem WellFormed.buffer (h : WellFormed m freelist (front ++ ⟨a, z, .allocated⟩ :: back)) :
    z < 2 ^ 31 ∧ a + z + 8 ≤ 2 ^ 32 ∧ bsizeOf m a = -(z : Int) := by
  have hxMem : (⟨a, z, .allocated⟩ : Block) ∈ front ++ ⟨a, z, .allocated⟩ :: back :=
    List.mem_append_right _ List.mem_cons_self
  obtain ⟨c, rest, rfl, hfollows⟩ := h.tiling.exists_next (by simp)
  rw [Block.Follows, if_neg (by simp)] at hfollows
  have haddr : c.addr = a + z := hfollows.1
  have hc := h.tiling.sized c (List.mem_append_right _ (List.mem_cons_of_mem _ List.mem_cons_self))
  have hpos := hc.pos
  have hend := hc.1
  obtain ⟨-, -, hsize, -⟩ := headers_append.mp h.headers
  exact ⟨((h.tiling.sized _ hxMem).room (by simp)).2, by omega, hsize⟩

/-- `raw_memalign` gives an aligned buffer and keeps the heap well-formed if and only if `bget` returns
`NULL`, or a buffer that is aligned, or one whose front can be released. -/
theorem rawMemalign_iff (B : Bget) (freelist : Nat) (blocks : List Block) (m m₁ : Bytes)
    (hdrSize ftrSize alignment size s b : Word) (hpow : isPowerOfTwo alignment = true)
    (hal : sizeQuant < alignment.toNat)
    (hs : s.toNat = hdrSize.toNat + ftrSize.toNat + alignment.toNat + size.toNat + sizeQ + sizeofBhead)
    (hcall : B.bget s m = .ok (b, m₁)) (hgives : Gives freelist m blocks s.toNat b m₁) :
    (Returns (rawMemalign B freelist hdrSize ftrSize alignment size) m fun r m' =>
        Gives freelist m blocks (hdrSize.toNat + size.toNat + ftrSize.toNat) r m' ∧
          (r = 0 ∨ alignment.toNat ∣ r.toNat + hdrSize.toNat)) ↔
      (b = 0 ∨ alignment.toNat ∣ b.toNat + hdrSize.toNat ∨
        Releasable m₁ hdrSize ftrSize alignment size b) := by
  have hal' : 16 ≤ alignment.toNat := by
    obtain ⟨k, hk, rfl⟩ := isPowerOfTwo_iff.mp hpow
    rw [BitVec.toNat_twoPow_of_lt hk] at hal ⊢
    have hlt : 2 ^ 3 < 2 ^ k := hal
    have hexp : 3 < k := (Nat.pow_lt_pow_iff_right (by decide)).mp hlt
    have hle : 2 ^ 4 ≤ 2 ^ k := Nat.pow_le_pow_right (by decide) hexp
    exact hle
  rw [returns_rawMemalign hpow hal hs hcall]
  simp only [sizeQ, sizeofBhead] at hs
  rcases hgives with ⟨rfl, blocks', hwell, hkept⟩ | ⟨front, a, z, back, hb, hz, hwell, hkept⟩
  · rw [if_pos rfl]
    exact ⟨fun _ => Or.inl rfl, fun _ => ⟨Or.inl ⟨rfl, blocks', hwell, hkept⟩, Or.inl rfl⟩⟩
  simp only [sizeofBhead] at hb hz
  obtain ⟨hzLt, hstop, hsize⟩ := hwell.buffer
  have hne : b ≠ 0 := by
    rintro rfl
    simp at hb
  have hsizes : hdrSize.toNat + ftrSize.toNat + size.toNat < 2 ^ 31 := by omega
  have hless : distance alignment.toNat (b.toNat + hdrSize.toNat) < alignment.toNat + 16 :=
    distance_lt (by omega)
  have hle := le_blockBytes (hdrSize.toNat + ftrSize.toNat + size.toNat)
  rw [if_neg hne, or_iff_right hne]
  by_cases hdvd : alignment.toNat ∣ b.toNat + hdrSize.toNat
  · have hfits : blockBytes (hdrSize.toNat + ftrSize.toNat + size.toNat) ≤ z := by
      unfold blockBytes
      simp only [sizeQ, sizeQuant, sizeofBhead]
      omega
    have hafter := brelAfter_shrinks hwell hsizes hfits
    rw [← hb] at hafter
    rw [returns_aligned hpow (by omega) hsizes hdvd]
    refine ⟨fun _ => Or.inl hdvd, fun _ => hafter.imp ?_⟩
    rintro - m' ⟨z', back', hwell', hle', hkept'⟩
    refine ⟨Or.inr ⟨front, a, z', back', hb, ?_, hwell', hkept.trans hkept'⟩, Or.inr hdvd⟩
    simp only [sizeofBhead]
    omega
  · have hprev : b.toNat - sizeofBhead = a := by
      rw [hb]
      exact Nat.add_sub_cancel a 8
    rw [returns_unaligned hpow hal' hs (by omega) hsizes hb hdvd, or_iff_right hdvd, Releasable, hprev,
      hsize, Int.neg_neg]
    constructor
    · intro hreturns
      obtain ⟨hword, hfits⟩ := released_needs hwell distance_ge (by omega) hsizes hreturns
      exact ⟨hword, by omega⟩
    · rintro ⟨hword, hfits⟩
      refine (released hwell distance_ge hsizes hword (by omega)).imp ?_
      rintro - m₂ hafter
      refine hafter.imp ?_
      rintro - m' ⟨front', z', back', hwell', hle', hkept'⟩
      have hstart := @toNat_alignedStart hdrSize alignment b hpow hal' (by omega)
      refine ⟨Or.inr ⟨front', _, z', back', ?_, ?_, hwell', hkept.trans hkept'⟩, Or.inr ?_⟩
      · simp only [sizeofBhead]
        omega
      · simp only [sizeofBhead]
        omega
      · rw [hstart, Nat.add_right_comm]
        exact dvd_add_distance (by omega)

/-! A heap with one block of 152 bytes, which a request for 144 bytes takes as a whole. -/

/-- The block at `0x1000` is free. -/
def oneFree (m : Bytes) : Bytes :=
  let m := (m.store 0x8008 0x1000).store 0x800c 0x1000
  let m := (((m.store 0x1000 0).store 0x1004 152).store 0x1008 0x8000).store 0x100c 0x8000
  (m.store 0x1098 152).store 0x109c 0x80000000

/-- The block is taken out of the free list, and the two headers say that it is allocated. -/
def takeBlock (m : Bytes) : Bytes :=
  (((m.store 0x8008 0x8000).store 0x800c 0x8000).store 0x1004 (-152)).store 0x1098 0

def oneBlock : Bget :=
  { exhausted with bget := fun s m => .ok (if s = 144 then (0x1008, takeBlock m) else (0, m)) }

theorem tiling_oneBlock {kind : BlockKind} (hkind : kind ≠ .sentinel) :
    Tiling 0x8000 [⟨0x1000, 152, kind⟩, ⟨0x1098, 8, .sentinel⟩] where
  follows := List.isChain_cons_cons.mpr
    ⟨Block.follows_of_stop hkind rfl (by simp), List.isChain_singleton _⟩
  short := by simp [Short]
  ends := by simp
  sized := by simp [Block.Sized, Block.stop, sizeofBhead, hkind]
  head_lt := by decide
  apart := by simp [Block.stop]

theorem wellFormed_oneFree (m : Bytes) :
    WellFormed (oneFree m) 0x8000 [⟨0x1000, 152, .free⟩, ⟨0x1098, 8, .sentinel⟩] where
  tiling := tiling_oneBlock (by decide)
  headers := by
    simp (disch := decide) [Headers, oneFree, prevfreeOf, bsizeOf, Bytes.load_store_of_apart,
      Block.bsize, Block.freeSize, eSent]
  list := by
    refine ⟨[0x1000], List.Perm.refl _, by decide, ?_⟩
    simp (disch := decide) [Linked, oneFree, flinkOf, blinkOf, Bytes.load_store_of_apart]

theorem wellFormed_takeBlock (m : Bytes) :
    WellFormed (takeBlock (oneFree m)) 0x8000 [⟨0x1000, 152, .allocated⟩, ⟨0x1098, 8, .sentinel⟩] where
  tiling := tiling_oneBlock (by decide)
  headers := by
    simp (disch := decide) [Headers, takeBlock, oneFree, prevfreeOf, bsizeOf,
      Bytes.load_store_of_apart, Block.bsize, Block.freeSize, eSent]
  list := by
    refine ⟨[], List.Perm.refl _, by decide, ?_⟩
    simp (disch := decide) [Linked, takeBlock, oneFree, flinkOf, blinkOf, Bytes.load_store_of_apart]

theorem gives_oneBlock (m : Bytes) :
    Gives 0x8000 (oneFree m) [⟨0x1000, 152, .free⟩, ⟨0x1098, 8, .sentinel⟩] (144 : Word).toNat 0x1008
      (takeBlock (oneFree m)) :=
  Or.inr ⟨[], 0x1000, 152, [⟨0x1098, 8, .sentinel⟩], rfl, by decide, wellFormed_takeBlock m,
    by simp [Kept]⟩

/-- The payload of the block is zero. -/
theorem rawMemalign_zeros :
    Returns (rawMemalign oneBlock 0x8000 0 0 64 64) (oneFree fun _ => 0) fun r m' =>
      Gives 0x8000 (oneFree fun _ => 0) [⟨0x1000, 152, .free⟩, ⟨0x1098, 8, .sentinel⟩]
          ((0 : Word).toNat + (64 : Word).toNat + (0 : Word).toNat) r m' ∧
        (r = 0 ∨ (64 : Word).toNat ∣ r.toNat + (0 : Word).toNat) :=
  (rawMemalign_iff oneBlock 0x8000 [⟨0x1000, 152, .free⟩, ⟨0x1098, 8, .sentinel⟩] (oneFree fun _ => 0)
    (takeBlock (oneFree fun _ => 0)) 0 0 64 64 144 0x1008 (by decide) (by decide) (by decide) rfl
    (gives_oneBlock _)).mpr (Or.inr (Or.inr ⟨Or.inr rfl, by decide⟩))

/-- The payload of the block has ones, and the assertion in `create_free_block` stops the kernel. -/
theorem not_rawMemalign_ones :
    WellFormed (oneFree fun _ => 1) 0x8000 [⟨0x1000, 152, .free⟩, ⟨0x1098, 8, .sentinel⟩] ∧
      oneBlock.bget 144 (oneFree fun _ => 1) = .ok (0x1008, takeBlock (oneFree fun _ => 1)) ∧
      Gives 0x8000 (oneFree fun _ => 1) [⟨0x1000, 152, .free⟩, ⟨0x1098, 8, .sentinel⟩]
        (144 : Word).toNat 0x1008 (takeBlock (oneFree fun _ => 1)) ∧
      (rawMemalign oneBlock 0x8000 0 0 64 64 (oneFree fun _ => 1)).result = .error .assertion :=
  ⟨wellFormed_oneFree _, rfl, gives_oneBlock _, rfl⟩

end Memalign

end SeCloak
