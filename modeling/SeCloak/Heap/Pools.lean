import SeCloak.Heap.Client

/-!
# Pools (`bget.c:988-1045`, `bget_malloc.c:850-884`)

`bpool` makes a region of memory a pool of one free block, wherever the region is among the pools that
are there. The first call of `malloc_add_pool` puts the table of the pools into the new pool, which is
why a pool has to be large enough for that.
-/

namespace SeCloak
open Misc Code

/-! ## A new pool -/

section Split

variable {freelist a e n : Nat} {front back lower upper blocks : List Block} {start : Option Nat}

/-- A region that is apart from the blocks is between two pools. -/
theorem Tiling.split_at (h : Tiling freelist blocks) (hae : a < e)
    (hapart : ∀ b ∈ blocks, b.stop ≤ a ∨ e ≤ b.addr) :
    ∃ lower upper, blocks = lower ++ upper ∧ (∀ b ∈ lower, b.stop ≤ a) ∧ (∀ b ∈ upper, e ≤ b.addr) ∧
      ∀ b ∈ lower.getLast?, b.kind = .sentinel := by
  have hfollows := h.follows
  have hends := h.ends
  have hsorted := h.sorted
  clear h
  induction blocks with
  | nil => exact ⟨[], [], rfl, by simp, by simp, by simp⟩
  | cons b blocks ih =>
    obtain ⟨hb, hsorted⟩ := List.pairwise_cons.mp hsorted
    rcases hapart b List.mem_cons_self with hstop | haddr
    · have hends' : ∀ b ∈ blocks.getLast?, b.kind = .sentinel := by
        cases blocks with
        | nil => simp
        | cons c blocks => simpa using hends
      obtain ⟨lower, upper, rfl, hlower, hupper, hlast⟩ :=
        ih (fun c hc => hapart c (List.mem_cons_of_mem b hc)) hfollows.tail hends' hsorted
      refine ⟨b :: lower, upper, rfl, List.forall_mem_cons.mpr ⟨hstop, hlower⟩, hupper, ?_⟩
      cases lower with
      | cons c lower => simpa using hlast
      | nil =>
        rw [List.getLast?_singleton]
        rintro d ⟨⟩
        cases upper with
        | nil => exact hends b rfl
        | cons c upper =>
          by_contra hkind
          have hbc : b.Follows c := (List.isChain_cons_cons.mp hfollows).1
          rw [Block.Follows, if_neg hkind] at hbc
          have hc := hupper c List.mem_cons_self
          omega
    · refine ⟨[], b :: blocks, rfl, by simp, ?_, by simp⟩
      refine List.forall_mem_cons.mpr ⟨haddr, fun c hc => ?_⟩
      have hle := hb c hc
      have hstop : b.addr ≤ b.stop := Nat.le_add_right _ _
      omega

theorem outline_append_of_ends (hends : ∀ b ∈ lower.getLast?, b.kind = .sentinel)
    (hstart : lower = [] → start = none) :
    outline start (lower ++ upper) = outline start lower ++ outline none upper := by
  induction lower generalizing start with
  | nil => rw [hstart rfl]; rfl
  | cons b lower ih =>
    have hends' : ∀ b ∈ lower.getLast?, b.kind = .sentinel := by
      cases lower with
      | nil => simp
      | cons c lower => simpa using hends
    rw [List.cons_append, outline, outline]
    split
    · rw [ih hends' fun _ => rfl, List.cons_append]
    · rename_i hkind
      refine ih hends' fun hnil => ?_
      subst hnil
      exact absurd (hends b rfl) hkind

theorem poolLength_append {xs ys : List Block} : poolLength n (xs ++ ys) = poolLength (poolLength n xs) ys := by
  induction xs generalizing n with
  | nil => rfl
  | cons x xs ih => exact ih

theorem poolLength_of_ends (hends : ∀ b ∈ lower.getLast?, b.kind = .sentinel) : poolLength 0 lower = 0 := by
  induction lower using List.reverseRecOn with
  | nil => rfl
  | append_singleton bs b _ =>
    have hb := hends b (by simp)
    rw [poolLength_append, poolLength, if_pos hb, poolLength]

/-- A pool is put between two others. -/
theorem Tiling.insert (h : Tiling freelist (lower ++ upper)) (hn : 16 ≤ n) (hlt : n < 2 ^ 31)
    (hend : a + n + 8 ≤ 2 ^ 32) (hhead : freelist + 16 ≤ a ∨ a + n + 8 ≤ freelist)
    (hlower : ∀ b ∈ lower, b.stop ≤ a) (hupper : ∀ b ∈ upper, a + n + 8 ≤ b.addr)
    (hlast : ∀ b ∈ lower.getLast?, b.kind = .sentinel) :
    Tiling freelist (lower ++ ⟨a, n, .free⟩ :: ⟨a + n, 8, .sentinel⟩ :: upper) := by
  obtain ⟨hfollowsLower, hfollowsUpper, -⟩ := List.isChain_append.mp h.follows
  have hshort := short_append.mp h.short
  rw [poolLength_of_ends hlast] at hshort
  refine ⟨?_, ?_, ?_, ?_, h.head_lt, ?_⟩
  · refine List.isChain_append.mpr ⟨hfollowsLower, List.isChain_cons_cons.mpr ⟨?_, ?_⟩, ?_⟩
    · exact Block.follows_of_stop (by simp) rfl (by simp)
    · rw [List.isChain_cons]
      refine ⟨fun b hb => ?_, hfollowsUpper⟩
      rw [Block.Follows, if_pos rfl]
      exact hupper b (List.mem_of_head? hb)
    · intro b hb c hc
      obtain rfl := Option.some.inj hc
      rw [Block.Follows, if_pos (hlast b hb)]
      exact hlower b (List.mem_of_getLast? hb)
  · refine short_append.mpr ⟨hshort.1, ?_⟩
    rw [poolLength_of_ends hlast]
    exact ⟨Or.inr (by dsimp only; omega), Or.inl rfl, hshort.2⟩
  · intro b hb
    have hends := h.ends
    cases upper with
    | nil =>
      rw [List.getLast?_append_of_ne_nil _ (by simp)] at hb
      obtain rfl := Option.some.inj hb
      rfl
    | cons c upper =>
      rw [List.getLast?_append_of_ne_nil _ (by simp), List.getLast?_cons_cons, List.getLast?_cons_cons] at hb
      rw [List.getLast?_append_of_ne_nil _ (by simp)] at hends
      exact hends b hb
  · intro b hb
    simp only [List.mem_append, List.mem_cons] at hb
    rcases hb with hb | rfl | rfl | hb
    · exact h.sized b (List.mem_append_left _ hb)
    · rw [Block.sized_iff (by simp), Block.stop]
      dsimp only
      omega
    · exact ⟨hend, rfl⟩
    · exact h.sized b (List.mem_append_right _ hb)
  · intro b hb
    simp only [List.mem_append, List.mem_cons] at hb
    rcases hb with hb | rfl | rfl | hb
    · exact h.apart b (List.mem_append_left _ hb)
    · rw [Block.stop]
      dsimp only
      omega
    · rw [Block.stop]
      dsimp only
      omega
    · exact h.apart b (List.mem_append_right _ hb)

end Split

section Bpool

variable {m : Bytes} {freelist buf n : Nat} {pools : List Span} {blocks lower upper : List Block}
  {Q : Unit → Bytes → Prop}

/-- The memory with the headers of a new pool. -/
def withPool (m : Bytes) (freelist buf n : Nat) : Bytes :=
  (((withNode (m.store buf (BitVec.ofInt 32 0)) freelist buf).store (buf + 4) (BitVec.ofInt 32 n)).store
    (buf + n) (BitVec.ofInt 32 n)).store (buf + n + 4) (BitVec.ofInt 32 eSent)

theorem returns_bpool (hdvd : sizeQuant ∣ n) (hlt : n < 2 ^ 31) :
    Returns (bpool freelist buf (n + sizeofBhead : Nat)) m Q ↔
      flinkOf (m.store buf (BitVec.ofInt 32 0)) (blinkOf (m.store buf (BitVec.ofInt 32 0)) freelist) = freelist ∧
      blinkOf (m.store buf (BitVec.ofInt 32 0)) (flinkOf (m.store buf (BitVec.ofInt 32 0)) freelist) = freelist ∧
      Q () (withPool m freelist buf n) := by
  have hround : ((n + sizeofBhead : Nat) : Int) / sizeQuant * sizeQuant = (n + sizeofBhead : Nat) := by
    simp only [sizeQuant] at hdvd
    simp only [sizeofBhead, sizeQuant]
    omega
  have hlen : ((n + sizeofBhead : Nat) : Int) - sizeofBhead = n := by
    push_cast
    omega
  have hassert : (n : Int) % 2 ^ 32 ≤ -(eSent + 1) := by
    unfold eSent
    omega
  have hoffset : offset buf (n : Int) = buf + n := rfl
  simp only [bpool, hround, hlen, returns_bind_iff, returns_heapAssert, returns_setPrevfree, returns_linkLast,
    returns_setBsize, hoffset]
  exact and_iff_right hassert

/-- The headers of the pool, its node, and what does not change. -/
theorem withPool_spec {nodes : List Nat} (hring : Ring (flinkOf m) (blinkOf m) freelist nodes)
    (hapart : NodesApart (freelist :: nodes)) (hnodes : ∀ x ∈ freelist :: nodes, x + 16 ≤ buf ∨ buf + n + 8 ≤ x)
    (hn : 16 ≤ n) (hlt : n < 2 ^ 31) (hend : buf + n + 8 ≤ 2 ^ 32) (hhead : freelist + 16 ≤ 2 ^ 32) :
    (flinkOf (m.store buf (BitVec.ofInt 32 0)) (blinkOf (m.store buf (BitVec.ofInt 32 0)) freelist) = freelist ∧
      blinkOf (m.store buf (BitVec.ofInt 32 0)) (flinkOf (m.store buf (BitVec.ofInt 32 0)) freelist) = freelist) ∧
    (prevfreeOf (withPool m freelist buf n) buf = 0 ∧ bsizeOf (withPool m freelist buf n) buf = n ∧
      prevfreeOf (withPool m freelist buf n) (buf + n) = n ∧
      bsizeOf (withPool m freelist buf n) (buf + n) = eSent) ∧
    Ring (flinkOf (withPool m freelist buf n)) (blinkOf (withPool m freelist buf n)) freelist (nodes ++ [buf]) ∧
    ChangedIn buf (buf + n + 8) (freelist :: nodes) m (withPool m freelist buf n) := by
  have hhead' := hnodes freelist List.mem_cons_self
  -- the word in the first header is no link
  have hring₁ : Ring (flinkOf (m.store buf (BitVec.ofInt 32 0))) (blinkOf (m.store buf (BitVec.ofInt 32 0)))
      freelist nodes := ring_frame hring fun x hx y hlo hhi => by
    have hx' := hnodes x hx
    exact Bytes.store_apply_of_outside (by omega)
  obtain ⟨hlastMem, hlastNext⟩ := hring₁.prev_head
  have hlast := hnodes _ hlastMem
  have hheader := @header_withNode (m.store buf (BitVec.ofInt 32 0)) freelist buf buf (by omega)
    (Or.inl (Nat.le_refl _)) (by omega) (by omega)
  have hnodes' : ∀ x ∈ freelist :: nodes, x + 16 ≤ buf ∨ buf + 16 ≤ x := by
    intro x hx
    have hx' := hnodes x hx
    omega
  have hring₂ := ring_withNode hring₁ hapart hnodes' (by omega) (by omega)
  have hlinks : ChangedIn buf (buf + n + 8) (freelist :: nodes) (m.store buf (BitVec.ofInt 32 0))
      (withNode (m.store buf (BitVec.ofInt 32 0)) freelist buf) :=
    changedIn_withNode hring₁ (by omega) (by omega) (by omega)
  refine ⟨⟨hlastNext, hring₁.next_head⟩, ⟨?_, ?_, ?_, ?_⟩, ?_, ?_⟩
  · rw [withPool, prevfreeOf_store_apart (by omega), prevfreeOf_store_apart (by omega),
      prevfreeOf_store_apart (by omega), hheader.1, prevfreeOf_store (by omega) (by omega)]
  · rw [withPool, bsizeOf_store_apart (by omega), bsizeOf_store_apart (by omega),
      bsizeOf_store (by omega) (by omega)]
  · rw [withPool, prevfreeOf_store_apart (by omega), prevfreeOf_store (by omega) (by omega)]
  · rw [withPool, bsizeOf_store (by decide) (by decide)]
  · refine ring_frame hring₂ fun x hx y hlo hhi => ?_
    have hx' : x = buf ∨ x + 16 ≤ buf ∨ buf + n + 8 ≤ x := by
      rw [← List.cons_append, List.mem_append, List.mem_singleton] at hx
      exact (hx.imp_left (hnodes x)).symm
    rw [withPool, Bytes.store_apply_of_outside (by omega), Bytes.store_apply_of_outside (by omega),
      Bytes.store_apply_of_outside (by omega)]
  · have hfirst : ChangedIn buf (buf + n + 8) (freelist :: nodes) m (m.store buf (BitVec.ofInt 32 0)) :=
      changedIn_store (by omega) (by omega)
    refine (hfirst.trans hlinks).trans ?_
    unfold withPool
    refine ChangedIn.trans ?_ (changedIn_store (by omega) (by omega))
    refine ChangedIn.trans ?_ (changedIn_store (by omega) (by omega))
    exact changedIn_store (by omega) (by omega)

/-- `bpool` adds a region that is apart from the other pools. -/
theorem bpool_adds (h : Heap m freelist pools blocks) (hbuf : sizeQuant ∣ buf) (hdvd : sizeQuant ∣ n)
    (hn : 16 ≤ n) (hlt : n < 2 ^ 31) (hend : buf + n + 8 ≤ 2 ^ 32)
    (hhead : freelist + 16 ≤ buf ∨ buf + n + 8 ≤ freelist)
    (hapart : ∀ pool ∈ pools, pool.hi + 8 ≤ buf ∨ buf + n + 8 ≤ pool.lo) :
    Returns (bpool freelist buf (n + sizeofBhead : Nat)) m fun _ m' => ∃ pools' blocks',
      Heap m' freelist pools' blocks' ∧ pools'.Perm (⟨buf, buf + n⟩ :: pools) ∧
        SameAllocated blocks blocks' ∧ SameContents blocks m m' := by
  have htiling := h.wellFormed.tiling
  obtain ⟨lower, upper, rfl, hlower, hupper, hlast⟩ := htiling.split_at (a := buf) (e := buf + n + 8)
    (by omega) fun b hb => by
      obtain ⟨pool, hpool, hlo, hhi, -⟩ :=
        @mem_outline _ none _ htiling.follows htiling.ends htiling.sized (by simp) hb
      have hpoolApart := hapart pool (h.pools ▸ hpool)
      simp only [sizeofBhead] at hhi
      omega
  have hnew := htiling.insert hn hlt hend hhead hlower hupper hlast
  obtain ⟨nodes, hperm, hring⟩ := h.wellFormed.list
  have hmem := (hperm.cons freelist).subset
  have hnodes : ∀ x ∈ freelist :: nodes, x + 16 ≤ buf ∨ buf + n + 8 ≤ x := by
    intro x hx
    rcases List.mem_cons.mp (hmem hx) with rfl | hx
    · exact hhead
    · obtain ⟨b, hb, hkind, rfl⟩ := mem_freeAddrs.mp hx
      have hroom := ((htiling.sized b hb).room (by simp [hkind])).1
      rcases List.mem_append.mp hb with hb | hb
      · exact Or.inl (Nat.le_trans hroom (hlower b hb))
      · exact Or.inr (hupper b hb)
  obtain ⟨hasserts, hheads, hring', hsame⟩ := withPool_spec hring
    (fun x hx y hy => htiling.nodes_apart (hmem hx) (hmem hy)) hnodes hn hlt hend htiling.head_lt
  have hblock : ∀ b ∈ lower ++ upper, ∀ x, b.addr ≤ x → x < b.stop →
      (b.kind ≠ .free ∨ x < b.addr + 8) → withPool m freelist buf n x = m x := by
    intro b hb x hlo hhi hfree
    refine hsame x ?_ fun y hy => ?_
    · rcases List.mem_append.mp hb with hb | hb
      · have hle := hlower b hb
        omega
      · have hle := hupper b hb
        omega
    · have hyb := htiling.node_apart (hmem hy) hb
      rcases hfree with hkind | hlt
      · have hyb' := hyb.resolve_left fun hself => hkind hself.1
        omega
      · omega
  have hheaders : ∀ xs pf, xs ⊆ lower ++ upper → Headers m pf xs → Headers (withPool m freelist buf n) pf xs := by
    intro xs pf hxs hxsHeaders
    refine hxsHeaders.frame (S := fun x => withPool m freelist buf n x = m x)
      (fun b hb x hlo hhi => ?_) fun _ hx => hx
    have hpos := (htiling.sized b (hxs hb)).pos
    exact hblock b (hxs hb) x hlo (by omega) (Or.inr hhi)
  obtain ⟨hheadersLower, hheadersUpper⟩ := headers_append.mp h.wellFormed.headers
  have hbefore : freeBefore 0 lower = 0 := freeBefore_of_last fun b hb => by simp [hlast b hb]
  rw [hbefore] at hheadersUpper
  refine (returns_bpool hdvd hlt).mpr ⟨hasserts.1, hasserts.2, outline none lower ++
    ⟨buf, buf + n⟩ :: outline none upper, lower ++ ⟨buf, n, .free⟩ :: ⟨buf + n, 8, .sentinel⟩ :: upper,
    ⟨⟨hnew, headers_append.mpr ⟨?_, ?_, hheads.2.1, hheads.2.2.1, hheads.2.2.2, ?_⟩, nodes ++ [buf], ?_, hring'⟩,
      ?_, ?_⟩, ?_, ?_, ?_⟩
  · exact hheaders lower 0 (List.subset_append_left _ _) hheadersLower
  · exact hheads.1.trans hbefore.symm
  · exact hheaders upper 0 (List.subset_append_right _ _) hheadersUpper
  · rw [freeAddrs_append] at hperm
    rw [freeAddrs_append, freeAddrs_cons_free rfl, freeAddrs_cons_of_ne (by simp)]
    exact ((List.perm_append_singleton buf nodes).trans (hperm.cons buf)).trans List.perm_middle.symm
  · intro b hb
    simp only [List.mem_append, List.mem_cons] at hb
    rcases hb with hb | rfl | rfl | hb
    · exact h.aligned b (List.mem_append_left _ hb)
    · exact ⟨hbuf, hdvd⟩
    · exact ⟨Nat.dvd_add hbuf hdvd, Nat.dvd_refl _⟩
    · exact h.aligned b (List.mem_append_right _ hb)
  · rw [outline_append_of_ends hlast fun _ => rfl, outline, if_neg (by simp), outline, if_pos rfl]
    rfl
  · have hpools := h.pools
    rw [outline_append_of_ends hlast fun _ => rfl] at hpools
    rw [← hpools]
    exact List.perm_middle
  · intro b hb
    simp only [List.mem_append, List.mem_cons]
    have hfree : b ≠ ⟨buf, n, .free⟩ := by
      rintro rfl
      cases hb
    have hsentinel : b ≠ ⟨buf + n, 8, .sentinel⟩ := by
      rintro rfl
      cases hb
    tauto
  · intro b hb hkind x hlo hhi
    exact hblock b hb x (by omega) hhi (Or.inl (by simp [hkind]))

end Bpool

/-! ## The table of the pools -/

/-- `malloc_pool` and `malloc_pool_len`. -/
structure PoolTable where
  pools : Word
  len : Nat

/-- `malloc_add_pool` (`bget_malloc.c:850-884`), between `malloc_lock` and `malloc_unlock`. -/
def mallocAddPool (freelist fuel : Nat) (t : PoolTable) (buf len : Word) : HeapCode PoolTable := do
  let start := roundUp buf (BitVec.ofNat 32 sizeQuant)
  let stop := roundDown (buf + len) (BitVec.ofNat 32 sizeQuant)
  heapAssert (start < stop)
  if stop - start < 24 then pure t
  else do
    bpool freelist start.toNat (stop - start).toInt
    let l := t.len + 1
    let p ← heapRealloc freelist fuel t.pools (8 * BitVec.ofNat 32 l)
    heapAssert (p ≠ 0)
    Code.modify fun m => m.store (p.toNat + 8 * t.len) start
    Code.modify fun m => m.store (p.toNat + 8 * t.len + 4) (stop - start)
    pure ⟨p, l⟩

section Table

variable {m m' : Bytes} {freelist fuel : Nat} {buf len : Word}

/-- A free list without a node. -/
theorem heap_empty (hflink : flinkOf m freelist = freelist) (hblink : blinkOf m freelist = freelist)
    (hlt : freelist + 16 ≤ 2 ^ 32) : Heap m freelist [] [] where
  wellFormed :=
    { tiling := ⟨List.isChain_nil, trivial, by simp, by simp, hlt, by simp⟩
      headers := trivial
      list := ⟨[], List.Perm.refl _, by simp, by
        rw [List.nil_append, List.isChain_cons_cons]
        exact ⟨⟨hflink, hblink⟩, List.isChain_singleton _⟩⟩ }
  aligned := by simp
  pools := rfl

/-- The first pool: nothing fails if the region has room for the smallest pool, and the heap starts with
one buffer, the table with the entry of the pool. -/
theorem mallocAddPool_first (hflink : flinkOf m freelist = freelist) (hblink : blinkOf m freelist = freelist)
    (hlt : freelist + 16 ≤ 2 ^ 32) {start stop : Nat} (hstart : start = (buf.toNat + 7) / 8 * 8)
    (hstop : stop = (buf.toNat + len.toNat) / 8 * 8) (hwrap : buf.toNat + len.toNat < 2 ^ 32)
    (hlen : start + 24 ≤ stop) (hshort : stop < start + 2 ^ 31)
    (happart : freelist + 16 ≤ start ∨ stop ≤ freelist) (hfuel : 2 ^ 29 < fuel) :
    Returns (mallocAddPool freelist fuel ⟨0, 0⟩ buf len) m fun t m' => ∃ m₁,
      Heap m₁ freelist [⟨start, stop - 8⟩] (freePool ⟨start, stop - 8⟩) ∧
        Session freelist fuel [⟨start, stop - 8⟩] m₁ m' [⟨t.pools.toNat, readBytes m' t.pools.toNat 8⟩] ∧
        t.len = 1 ∧ (m'.load t.pools.toNat).toNat = start ∧
        (m'.load (t.pools.toNat + 4)).toNat = stop - start := by
  have hquant : BitVec.ofNat 32 sizeQuant = BitVec.twoPow 32 3 := rfl
  have hsum : (buf + len).toNat = buf.toNat + len.toNat := BitVec.toNat_add_of_lt hwrap
  have hstartNat : (roundUp buf (BitVec.ofNat 32 sizeQuant)).toNat = start := by
    rw [hquant, toNat_roundUp (by decide) (by omega), hstart]
    rfl
  have hstopNat : (roundDown (buf + len) (BitVec.ofNat 32 sizeQuant)).toNat = stop := by
    rw [hquant, toNat_roundDown _ (by decide), hsum, hstop]
    rfl
  have hsizeNat : (roundDown (buf + len) (BitVec.ofNat 32 sizeQuant) -
      roundUp buf (BitVec.ofNat 32 sizeQuant)).toNat = stop - start := by
    rw [BitVec.toNat_sub_of_le (by rw [BitVec.le_def]; omega), hstopNat, hstartNat]
  have hsizeInt : (roundDown (buf + len) (BitVec.ofNat 32 sizeQuant) -
      roundUp buf (BitVec.ofNat 32 sizeQuant)).toInt = ((stop - start - 8 + sizeofBhead : Nat) : Int) := by
    rw [BitVec.toInt_eq_toNat_of_lt (by omega), hsizeNat]
    simp only [sizeofBhead]
    omega
  simp only [mallocAddPool]
  generalize roundUp buf (BitVec.ofNat 32 sizeQuant) = first at hstartNat hsizeNat hsizeInt ⊢
  generalize roundDown (buf + len) (BitVec.ofNat 32 sizeQuant) = last at hstopNat hsizeNat hsizeInt ⊢
  have hpools : start + (stop - start - 8) = stop - 8 := by omega
  have hpool := bpool_adds (n := stop - start - 8) (heap_empty hflink hblink hlt)
    (show sizeQuant ∣ start by unfold sizeQuant; omega) (by unfold sizeQuant; omega) (by omega) (by omega)
    (by omega) (by omega) (by simp)
  have hlen' : ¬ last - first < 24 := by
    have htwentyfour : (24 : Word).toNat = 24 := rfl
    rw [BitVec.lt_def, hsizeNat, htwentyfour]
    omega
  rw [hpools] at hpool
  refine returns_bind_iff.mpr (returns_heapAssert.mpr ⟨?_, ?_⟩)
  · rw [BitVec.lt_def]
    omega
  rw [if_neg hlen', hstartNat, hsizeInt]
  refine returns_bind hpool ?_
  rintro - m₁ ⟨pools', blocks', hheap, hperm, hsame, -⟩
  obtain rfl := List.perm_singleton.mp hperm
  have hfree : ∀ b ∈ blocks', b.kind ≠ .allocated := fun b hb hkind => by
    have hnone := (hsame b hkind).mp hb
    cases hnone
  obtain rfl := hheap.blocks_of_free hfree
  rw [List.flatMap_singleton] at hheap hfree
  obtain ⟨w, r, m₂, hrun, hne⟩ := heapRealloc_serves hheap hfuel (s := 8) (by decide) (by
    rw [show freePool ⟨start, stop - 8⟩ = [⟨start, stop - 8⟩].flatMap freePool from
      (List.flatMap_singleton ..).symm, exhausted_freePools (by decide)]
    simp [blockBytes, sizeQ, sizeQuant, sizeofBhead]
    omega)
  have hempty : Session freelist fuel [⟨start, stop - 8⟩] m₁ m₁ [] := .start
  have hsession := hempty.call (c := .realloc 0 8) ⟨Or.inl rfl, by decide⟩ hrun
  have htrack : (HeapCall.realloc 0 8).track r m₂ [] = [⟨r.toNat, readBytes m₂ r.toNat 8⟩] := by
    simp only [HeapCall.track, if_neg hne]
    rfl
  rw [htrack] at hsession
  have houtside : ∀ x, x < r.toNat ∨ r.toNat + (readBytes m₂ r.toNat 8).length ≤ x →
      ((m₂.store r.toNat first).store (r.toNat + 4) (last - first)) x = m₂ x := by
    intro x hx
    rw [length_readBytes] at hx
    rw [Bytes.store_apply_of_outside (by omega), Bytes.store_apply_of_outside (by omega)]
  have hwritten := hsession.write (b := ⟨r.toNat, readBytes m₂ r.toNat 8⟩) List.mem_cons_self houtside
  simp only [rewrite, List.map_cons, List.map_nil, if_true, length_readBytes] at hwritten
  refine returns_bind (P := fun a s => a = r ∧ s = m₂) ⟨w, r, m₂, hrun, rfl, rfl⟩ ?_
  rintro _ _ ⟨rfl, rfl⟩
  refine returns_bind_iff.mpr (returns_heapAssert.mpr ⟨hne, ?_⟩)
  refine returns_bind_iff.mpr (returns_modify (returns_bind_iff.mpr (returns_modify (returns_pure ?_))))
  rw [Nat.mul_zero, Nat.add_zero]
  refine ⟨m₁, hheap, hwritten, rfl, ?_, ?_⟩
  · rw [Bytes.load_store_of_apart (by dsimp only; omega), Bytes.load_store, hstartNat]
  · rw [Bytes.load_store, hsizeNat]

/-- Memory with an empty free list. -/
def emptyFreeList (m : Bytes) : Bytes := (m.store 0x8008 0x8000).store 0x800c 0x8000

theorem emptyFreeList_links (m : Bytes) :
    flinkOf (emptyFreeList m) 0x8000 = 0x8000 ∧ blinkOf (emptyFreeList m) 0x8000 = 0x8000 := by
  simp (disch := decide) [emptyFreeList, flinkOf, blinkOf, Bytes.load_store_of_apart]

theorem mallocAddPool_first_page :
    Returns (mallocAddPool 0x8000 (2 ^ 29 + 1) ⟨0, 0⟩ 0x1001 0x1000) (emptyFreeList fun _ => 0) fun t m' => ∃ m₁,
      Heap m₁ 0x8000 [⟨0x1008, 0x2000 - 8⟩] (freePool ⟨0x1008, 0x2000 - 8⟩) ∧
        Session 0x8000 (2 ^ 29 + 1) [⟨0x1008, 0x2000 - 8⟩] m₁ m'
          [⟨t.pools.toNat, readBytes m' t.pools.toNat 8⟩] ∧
        t.len = 1 ∧ (m'.load t.pools.toNat).toNat = 0x1008 ∧
        (m'.load (t.pools.toNat + 4)).toNat = 0x2000 - 0x1008 :=
  mallocAddPool_first (emptyFreeList_links _).1 (emptyFreeList_links _).2 (by decide) (by decide) (by decide) (by decide) (by decide) (by decide) (by decide)
    (by decide)

end Table

end SeCloak
