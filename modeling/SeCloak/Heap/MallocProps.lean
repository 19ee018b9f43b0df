import SeCloak.Heap.Malloc
import SeCloak.Misc.Faults
import SeCloak.Misc.Span

/-!
# Sizes of requests and the extent of the heap

Each function adds up the bytes it needs in 32 bits and tests the sum afterwards. A sum of several
sizes wraps at most once, and is then below one of them; the product in `raw_calloc` can wrap any
number of times. The test for a buffer that overlaps the heap joins its two comparisons with an or.
-/

namespace SeCloak
open Misc

/-! ## Code without requests -/

/-- The code asks for no memory. -/
def Silent {α : Type} (code : HeapCode α) : Prop := Code.Emits (fun _ => False) code

section Silent

variable {α β : Type} {p q : Nat} {v : Int}

theorem Silent.bind {code : HeapCode α} {rest : α → HeapCode β} (h : Silent code)
    (hrest : ∀ a, Silent (rest a)) : Silent (code >>= rest) := Code.emits_bind h hrest

theorem silent_pure (a : α) : Silent (pure a) := Code.emits_pure a

theorem silent_prevfree : Silent (prevfree p) := Code.emits_bind Code.emits_get fun _ => silent_pure _
theorem silent_bsize : Silent (bsize p) := Code.emits_bind Code.emits_get fun _ => silent_pure _
theorem silent_flink : Silent (flink p) := Code.emits_bind Code.emits_get fun _ => silent_pure _
theorem silent_blink : Silent (blink p) := Code.emits_bind Code.emits_get fun _ => silent_pure _

theorem silent_setPrevfree : Silent (setPrevfree p v) := Code.emits_modify _
theorem silent_setBsize : Silent (setBsize p v) := Code.emits_modify _
theorem silent_setFlink : Silent (setFlink p q) := Code.emits_modify _
theorem silent_setBlink : Silent (setBlink p q) := Code.emits_modify _

theorem silent_heapAssert {c : Prop} [Decidable c] : Silent (heapAssert c) := Code.emits_require _

theorem silent_createFreeBlock (freelist bf : Nat) (size : Int) (bn : Nat) :
    Silent (createFreeBlock freelist bf size bn) := by
  unfold createFreeBlock
  repeat' first
    | with_reducible exact silent_bsize
    | with_reducible exact silent_prevfree
    | with_reducible exact silent_flink
    | with_reducible exact silent_blink
    | with_reducible exact silent_setBsize
    | with_reducible exact silent_setPrevfree
    | with_reducible exact silent_setFlink
    | with_reducible exact silent_setBlink
    | with_reducible exact silent_heapAssert
    | refine Silent.bind ?_ fun _ => ?_

theorem silent_brelBefore (freelist origBuf newBuf : Nat) :
    Silent (brelBefore freelist origBuf newBuf) := by
  unfold brelBefore
  refine Silent.bind silent_heapAssert fun _ => Silent.bind silent_heapAssert fun _ => ?_
  refine Silent.bind silent_bsize fun _ => Silent.bind silent_prevfree fun _ => ?_
  refine Code.emits_ite ?_ (Silent.bind silent_setBsize fun _ => silent_createFreeBlock _ _ _ _)
  repeat' first
    | with_reducible exact silent_bsize
    | with_reducible exact silent_prevfree
    | with_reducible exact silent_setBsize
    | with_reducible exact silent_setPrevfree
    | with_reducible exact silent_heapAssert
    | refine Silent.bind ?_ fun _ => ?_

theorem silent_brelAfter (freelist buf : Nat) (size : Int) : Silent (brelAfter freelist buf size) := by
  unfold brelAfter
  refine Silent.bind silent_bsize fun _ => Silent.bind silent_heapAssert fun _ => ?_
  refine Silent.bind silent_bsize fun _ => Code.emits_ite (silent_pure ()) ?_
  refine Silent.bind silent_bsize fun _ => Silent.bind silent_setBsize fun _ => ?_
  refine Silent.bind silent_bsize fun _ => Code.emits_ite ?_ (silent_createFreeBlock _ _ _ _)
  repeat' first
    | with_reducible exact silent_bsize
    | with_reducible exact silent_prevfree
    | with_reducible exact silent_flink
    | with_reducible exact silent_blink
    | with_reducible exact silent_setBsize
    | with_reducible exact silent_setPrevfree
    | with_reducible exact silent_setFlink
    | with_reducible exact silent_setBlink
    | with_reducible exact silent_heapAssert
    | refine Silent.bind ?_ fun _ => ?_

theorem silent_releaseFront (freelist : Nat) (hdrSize ftrSize alignment size s b : Word) :
    Silent (releaseFront freelist hdrSize ftrSize alignment size s b) := by
  unfold releaseFront
  refine Code.emits_ite ?_ (silent_pure b)
  exact Silent.bind silent_heapAssert fun _ =>
    Silent.bind (silent_brelBefore _ _ _) fun _ => silent_pure _

end Silent

/-! ## Sizes of requests -/

/-- The code asks for at least `n` bytes whenever it asks, and otherwise returns `NULL`. -/
structure AsksEnough (code : HeapCode Word) (n : Nat) : Prop where
  enough : Code.Emits (fun s : Word => n ≤ s.toNat) code
  null : ∀ m, (code m).events = [] → Code.Runs code m [] 0 m

section Requests

variable {n : Nat} {s : Word}

theorem asksEnough_null : AsksEnough (pure 0) n where
  enough := Code.emits_pure 0
  null _ _ := Code.runs_pure.mpr ⟨rfl, rfl, rfl⟩

theorem asksEnough_ask_iff {alloc : Bytes → Except Fault (Word × Bytes)} :
    AsksEnough (ask s alloc) n ↔ n ≤ s.toNat := by
  constructor
  · intro h
    exact h.enough (fun _ => 0) s (List.mem_singleton.mpr rfl)
  · intro h
    refine ⟨fun m x hx => ?_, fun _ hm => by cases hm⟩
    obtain rfl := List.mem_singleton.mp hx
    exact h

/-- What follows a request does not matter if it asks for nothing itself. -/
theorem asksEnough_ask_bind {alloc : Bytes → Except Fault (Word × Bytes)} {rest : Word → HeapCode Word}
    (h : n ≤ s.toNat) (hrest : ∀ b, Silent (rest b)) : AsksEnough (ask s alloc >>= rest) n where
  enough := by
    refine Code.emits_bind (asksEnough_ask_iff.mpr h).enough fun b m x hx => ?_
    exact (hrest b m x hx).elim
  null m hm := by
    have hevents : (Code.bind (ask s alloc) rest m).events ≠ [] := by
      unfold Code.bind ask
      cases alloc m with
      | error e => simp
      | ok r => simp
    exact absurd hm hevents

theorem le_notZero (s : Word) : s.toNat ≤ (notZero s).toNat := by
  unfold notZero
  split
  · rename_i h
    simp [h]
  · exact Nat.le_refl _

variable {hdrSize ftrSize plSize plNmemb alignment size ptr : Word}

theorem toNat_sizes :
    (hdrSize + ftrSize + plSize).toNat =
      (hdrSize.toNat + ftrSize.toNat + plSize.toNat) % 2 ^ 32 := by
  rw [BitVec.toNat_add, BitVec.toNat_add]
  omega

/-- The sum of the sizes has not wrapped if it passes the test. -/
theorem le_sizes (hhdr : hdrSize.toNat ≤ 1024) (hftr : ftrSize.toNat ≤ 1024)
    (h : ¬ hdrSize + ftrSize + plSize < plSize) :
    hdrSize.toNat + ftrSize.toNat + plSize.toNat ≤ (hdrSize + ftrSize + plSize).toNat := by
  rw [BitVec.lt_def] at h
  have hsum : (hdrSize + ftrSize + plSize).toNat = _ := toNat_sizes
  have hpl := plSize.isLt
  omega

theorem asksEnough_rawMalloc (B : Bget) (hhdr : hdrSize.toNat ≤ 1024) (hftr : ftrSize.toNat ≤ 1024) :
    AsksEnough (rawMalloc B hdrSize ftrSize plSize)
      (hdrSize.toNat + ftrSize.toNat + plSize.toNat) := by
  unfold rawMalloc
  dsimp only
  split
  · exact asksEnough_null
  · rename_i h
    exact asksEnough_ask_iff.mpr (Nat.le_trans (le_sizes hhdr hftr h) (le_notZero _))

theorem asksEnough_rawRealloc (B : Bget) (hhdr : hdrSize.toNat ≤ 1024) (hftr : ftrSize.toNat ≤ 1024) :
    AsksEnough (rawRealloc B ptr hdrSize ftrSize plSize)
      (hdrSize.toNat + ftrSize.toNat + plSize.toNat) := by
  unfold rawRealloc
  dsimp only
  split
  · exact asksEnough_null
  · rename_i h
    exact asksEnough_ask_iff.mpr (Nat.le_trans (le_sizes hhdr hftr h) (le_notZero _))

/-- The test is right about powers of two. -/
theorem isPowerOfTwo_iff {x : Word} : isPowerOfTwo x = true ↔ ∃ k < 32, x = BitVec.twoPow 32 k := by
  unfold isPowerOfTwo
  rw [Bool.and_eq_true, decide_eq_true_iff, decide_eq_true_iff]
  constructor
  · rintro ⟨hne, hself⟩
    have hnot : ~~~(x - 1) = ~~~x + 1 := BitVec.not_sub_one_eq_not_add_one
    have hand : x &&& (x - 1) = 0#32 := by
      conv => lhs; lhs; rw [← hself, ← hnot]
      rw [BitVec.and_assoc, BitVec.and_comm (~~~(x - 1)), BitVec.and_not_self]
      exact BitVec.and_zero
    have hpos : x.toNat ≠ 0 := fun h => hne (BitVec.eq_of_toNat_eq h)
    have hpow : x.toNat.isPowerOfTwo := by
      apply (Nat.and_sub_one_eq_zero_iff_isPowerOfTwo hpos).mp
      have hnat := congrArg BitVec.toNat hand
      rw [BitVec.toNat_and, BitVec.toNat_sub_of_le (by bv_omega)] at hnat
      exact hnat
    obtain ⟨k, hk⟩ := hpow
    have hlt : k < 32 := by
      have hx := x.isLt
      rw [hk] at hx
      exact (Nat.pow_lt_pow_iff_right (by decide)).mp hx
    refine ⟨k, hlt, BitVec.eq_of_toNat_eq ?_⟩
    rw [BitVec.toNat_twoPow_of_lt hlt, hk]
  · rintro ⟨k, hk, rfl⟩
    have hall : ∀ k < 32, BitVec.twoPow 32 k ≠ 0 ∧
        BitVec.twoPow 32 k &&& (~~~BitVec.twoPow 32 k + 1) = BitVec.twoPow 32 k := by decide
    exact hall k hk

/-- A power of two is at most the highest one. -/
theorem toNat_le_of_isPowerOfTwo (h : isPowerOfTwo alignment = true) :
    alignment.toNat ≤ 2 ^ 31 := by
  obtain ⟨k, hk, rfl⟩ := isPowerOfTwo_iff.mp h
  rw [BitVec.toNat_twoPow_of_lt hk]
  exact Nat.pow_le_pow_right (by decide) (by omega)

theorem asksEnough_rawMemalign (B : Bget) (freelist : Nat) (hhdr : hdrSize.toNat ≤ 1024)
    (hftr : ftrSize.toNat ≤ 1024) :
    AsksEnough (rawMemalign B freelist hdrSize ftrSize alignment size)
      (hdrSize.toNat + ftrSize.toNat + size.toNat) := by
  unfold rawMemalign
  split
  · exact asksEnough_null
  rename_i hpow
  split
  · exact asksEnough_rawMalloc B hhdr hftr
  dsimp only
  split
  · exact asksEnough_null
  rename_i hwrap
  refine asksEnough_ask_bind ?_ fun b => ?_
  · have hal := toNat_le_of_isPowerOfTwo (Bool.not_eq_false _ ▸ hpow)
    have hsize := size.isLt
    rw [not_or, BitVec.lt_def, BitVec.lt_def] at hwrap
    simp only [BitVec.toNat_add, BitVec.toNat_ofNat, sizeQ, sizeofBhead] at hwrap ⊢
    omega
  · refine Code.emits_ite (silent_pure b) ?_
    refine Silent.bind (silent_releaseFront _ _ _ _ _ _ _) fun _ => ?_
    exact Silent.bind (silent_brelAfter _ _ _) fun _ => silent_pure _

/-- The test misses the products that wrap past both factors. -/
theorem asksEnough_rawCalloc_iff (B : Bget) :
    AsksEnough (rawCalloc B hdrSize ftrSize plNmemb plSize)
        (hdrSize.toNat + ftrSize.toNat + plNmemb.toNat * plSize.toNat) ↔
      hdrSize.toNat + ftrSize.toNat + plNmemb.toNat * plSize.toNat < 2 ^ 32 ∨
        hdrSize + ftrSize + plNmemb * plSize < plNmemb ∨
        hdrSize + ftrSize + plNmemb * plSize < plSize := by
  unfold rawCalloc
  dsimp only
  split
  · rename_i hwrap
    exact ⟨fun _ => Or.inr hwrap, fun _ => asksEnough_null⟩
  · rename_i hwrap
    rw [asksEnough_ask_iff, or_iff_left hwrap]
    have hsum : (hdrSize + ftrSize + plNmemb * plSize).toNat =
        (hdrSize.toNat + ftrSize.toNat + plNmemb.toNat * plSize.toNat) % 2 ^ 32 := by
      rw [BitVec.toNat_add, BitVec.toNat_add, BitVec.toNat_mul]
      omega
    have hlo := le_notZero (hdrSize + ftrSize + plNmemb * plSize)
    have hhi := (notZero (hdrSize + ftrSize + plNmemb * plSize)).isLt
    omega

/-- The four functions ask for enough if and only if the product of `raw_calloc` does not wrap or its
wrapped sum is below one of the factors. -/
theorem asksEnough_iff (B : Bget) (freelist : Nat) (ptr hdrSize ftrSize plNmemb plSize alignment : Word)
    (hhdr : hdrSize.toNat ≤ 1024) (hftr : ftrSize.toNat ≤ 1024) :
    (AsksEnough (rawMalloc B hdrSize ftrSize plSize)
        (hdrSize.toNat + ftrSize.toNat + plSize.toNat) ∧
      AsksEnough (rawCalloc B hdrSize ftrSize plNmemb plSize)
        (hdrSize.toNat + ftrSize.toNat + plNmemb.toNat * plSize.toNat) ∧
      AsksEnough (rawRealloc B ptr hdrSize ftrSize plSize)
        (hdrSize.toNat + ftrSize.toNat + plSize.toNat) ∧
      AsksEnough (rawMemalign B freelist hdrSize ftrSize alignment plSize)
        (hdrSize.toNat + ftrSize.toNat + plSize.toNat)) ↔
      (hdrSize.toNat + ftrSize.toNat + plNmemb.toNat * plSize.toNat < 2 ^ 32 ∨
        hdrSize + ftrSize + plNmemb * plSize < plNmemb ∨
        hdrSize + ftrSize + plNmemb * plSize < plSize) := by
  rw [← asksEnough_rawCalloc_iff B]
  constructor
  · exact fun h => h.2.1
  · intro h
    exact ⟨asksEnough_rawMalloc B hhdr hftr, h, asksEnough_rawRealloc B hhdr hftr,
      asksEnough_rawMemalign B freelist hhdr hftr⟩

/-- An allocator without free memory. -/
def exhausted : Bget where
  bget _ m := .ok (0, m)
  bgetz _ m := .ok (0, m)
  bgetr _ _ m := .ok (0, m)

/-- Sixteen records of a page, with a header of sixteen bytes. -/
theorem asksEnough_pages : AsksEnough (rawCalloc exhausted 16 4 16 0x1000) 0x10014 :=
  ((asksEnough_iff exhausted 0x8000 0 16 4 16 0x1000 64 (by decide) (by decide)).mpr
    (Or.inl (by decide))).2.1

/-- For 65537 records of 65537 bytes `raw_calloc` asks for 131073 bytes. -/
theorem not_asksEnough_square :
    (rawCalloc exhausted 0 0 0x10001 0x10001 fun _ => 0).events = [131073] ∧
      ¬ AsksEnough (rawCalloc exhausted 0 0 0x10001 0x10001) (0x10001 * 0x10001) := by
  refine ⟨by decide, fun h => ?_⟩
  have hle := h.enough (fun _ => 0) 131073 (by decide)
  exact absurd hle (by decide)

end Requests

/-! ## The extent of the heap -/

/-- The addresses of a pool. -/
def MallocPool.span (pool : MallocPool) : Span := ⟨pool.buf.toNat, pool.buf.toNat + pool.len.toNat⟩

/-- Every buffer counts as overlapping as soon as there is a pool: it ends behind the start of the pool
or starts before the end. -/
theorem mallocBufferOverlapsHeap_cons {buf len : Word} {pool : MallocPool} (pools : List MallocPool)
    (hlen : 0 < len) (hbuf : buf.toNat + len.toNat < 2 ^ 32)
    (hpool : pool.buf.toNat + pool.len.toNat < 2 ^ 32) :
    mallocBufferOverlapsHeap buf len (pool :: pools) = true := by
  have hpos : 0 < len.toNat := hlen
  have hend : (buf + len).toNat = buf.toNat + len.toNat := BitVec.toNat_add_of_lt hbuf
  have hpoolEnd : (pool.buf + pool.len).toNat = pool.buf.toNat + pool.len.toNat :=
    BitVec.toNat_add_of_lt hpool
  rw [mallocBufferOverlapsHeap]
  split
  · rfl
  · rw [if_pos]
    rw [BitVec.lt_def, BitVec.lt_def, hend, hpoolEnd]
    omega

/-- The verdict is right for a heap without pools and for the buffers that do overlap a pool. -/
theorem mallocBufferOverlapsHeap_iff (pools : List MallocPool) (buf len : Word)
    (hpools : ∀ pool ∈ pools, pool.buf.toNat + pool.len.toNat < 2 ^ 32) (hlen : 0 < len)
    (hbuf : buf.toNat + len.toNat < 2 ^ 32) :
    (mallocBufferOverlapsHeap buf len pools = true ↔
        ∃ pool ∈ pools, ∃ x, buf.toNat ≤ x ∧ x < buf.toNat + len.toNat ∧ pool.span.Has x) ↔
      (pools = [] ∨
        ∃ pool ∈ pools, ¬ (Span.mk buf.toNat (buf.toNat + len.toNat)).Apart pool.span) := by
  have hmeet : (∃ pool ∈ pools, ∃ x, buf.toNat ≤ x ∧ x < buf.toNat + len.toNat ∧ pool.span.Has x) ↔
      ∃ pool ∈ pools, ¬ (Span.mk buf.toNat (buf.toNat + len.toNat)).Apart pool.span := by
    simp only [Span.Apart, Span.Has, not_forall, not_not, exists_prop, and_assoc]
  rw [hmeet]
  cases pools with
  | nil => simp [mallocBufferOverlapsHeap]
  | cons pool pools =>
    rw [mallocBufferOverlapsHeap_cons pools hlen hbuf (hpools pool List.mem_cons_self)]
    simp

/-- A buffer inside of the second of two pools. -/
theorem mallocBufferOverlapsHeap_inside :
    mallocBufferOverlapsHeap 0x3010 0x20 [⟨0x1000, 0x100⟩, ⟨0x3000, 0x1000⟩] = true ↔
      ∃ pool ∈ ([⟨0x1000, 0x100⟩, ⟨0x3000, 0x1000⟩] : List MallocPool), ∃ x,
        (0x3010 : Word).toNat ≤ x ∧ x < (0x3010 : Word).toNat + (0x20 : Word).toNat ∧
          pool.span.Has x :=
  (mallocBufferOverlapsHeap_iff [⟨0x1000, 0x100⟩, ⟨0x3000, 0x1000⟩] 0x3010 0x20 (by decide) (by decide)
    (by decide)).mpr
    (Or.inr ⟨⟨0x3000, 0x1000⟩, by simp, fun h => h 0x3010 (by decide) (by decide)⟩)

/-- A buffer far above the only pool. -/
theorem mallocBufferOverlapsHeap_above :
    mallocBufferOverlapsHeap 0x80000000 0x1000 [⟨0x1000, 0x1000⟩] = true ∧
      ¬ ∃ pool ∈ ([⟨0x1000, 0x1000⟩] : List MallocPool), ∃ x,
        (0x80000000 : Word).toNat ≤ x ∧ x < (0x80000000 : Word).toNat + (0x1000 : Word).toNat ∧
          pool.span.Has x := by
  refine ⟨by decide, ?_⟩
  rintro ⟨pool, hpool, x, hx, -, hhas⟩
  obtain rfl := List.mem_singleton.mp hpool
  have hlt : x < 0x2000 := hhas.2
  have hge : 0x80000000 ≤ x := hx
  omega

end SeCloak
