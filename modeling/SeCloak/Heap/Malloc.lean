import SeCloak.Misc.Bytes
import SeCloak.Misc.Code
import SeCloak.State
import Mathlib.Algebra.Group.Int.Defs
import Mathlib.Algebra.Group.Nat.Defs

/-!
# The heap (`bget_malloc.c`)

The heap lies in byte-addressed memory, and a pointer is an address. A block starts with `struct bhead`,
two words of type `bufsize`, which is a signed word; a free block has the two links of the free list
behind it. What `bget.c` does is a parameter. An event of the code is the number of bytes that it asks
`bget.c` for. Without `NDEBUG` an assertion that fails stops the kernel.
-/

namespace SeCloak
open Misc

/-- Code that works on the heap. -/
abbrev HeapCode := Code Bytes Word Fault

/-! ## Blocks (`bget.c:490-570`) -/

/-- `SizeQuant` where pointers have 32 bits, `SizeQ` and `sizeof(struct bhead)`. -/
def sizeQuant : Nat := 8
def sizeQ : Nat := 8
def sizeofBhead : Nat := 8

/-- The fields of `struct bhead` and `struct bfhead` at the address `p`. -/
def prevfreeOf (m : Bytes) (p : Nat) : Int := (m.load p).toInt
def bsizeOf (m : Bytes) (p : Nat) : Int := (m.load (p + 4)).toInt
def flinkOf (m : Bytes) (p : Nat) : Nat := (m.load (p + 8)).toNat
def blinkOf (m : Bytes) (p : Nat) : Nat := (m.load (p + 12)).toNat

def prevfree (p : Nat) : HeapCode Int := do pure (prevfreeOf (← Code.get) p)
def bsize (p : Nat) : HeapCode Int := do pure (bsizeOf (← Code.get) p)
def flink (p : Nat) : HeapCode Nat := do pure (flinkOf (← Code.get) p)
def blink (p : Nat) : HeapCode Nat := do pure (blinkOf (← Code.get) p)

def setPrevfree (p : Nat) (v : Int) : HeapCode Unit := Code.modify fun m => m.store p (BitVec.ofInt 32 v)
def setBsize (p : Nat) (v : Int) : HeapCode Unit :=
  Code.modify fun m => m.store (p + 4) (BitVec.ofInt 32 v)
def setFlink (p q : Nat) : HeapCode Unit := Code.modify fun m => m.store (p + 8) (BitVec.ofNat 32 q)
def setBlink (p q : Nat) : HeapCode Unit := Code.modify fun m => m.store (p + 12) (BitVec.ofNat 32 q)

/-- A pointer and an offset of type `bufsize`. -/
def offset (p : Nat) (n : Int) : Nat := (p + n).toNat

def heapAssert (p : Prop) [Decidable p] : HeapCode Unit := Code.require p .assertion

/-! ## Releasing parts of a block -/

/-- `create_free_block` (`bget_malloc.c:355-376`). -/
def createFreeBlock (freelist bf : Nat) (size : Int) (bn : Nat) : HeapCode Unit := do
  heapAssert (offset bf size = bn)
  -- the next block should be allocated, without a free block in front
  heapAssert ((← bsize bn) < 0)
  heapAssert ((← prevfree bn) = 0)
  setBsize bf size
  setPrevfree bf 0
  setPrevfree bn size
  heapAssert ((← flink (← blink freelist)) = freelist)
  heapAssert ((← blink (← flink freelist)) = freelist)
  setFlink bf freelist
  setBlink bf (← blink freelist)
  setBlink freelist bf
  setFlink (← blink bf) bf

/-- `brel_before` (`bget_malloc.c:378-424`), without the statistics. -/
def brelBefore (freelist origBuf newBuf : Nat) : HeapCode Unit := do
  heapAssert (origBuf < newBuf)
  let size : Int := (newBuf - origBuf : Nat)
  heapAssert ((sizeQ + sizeofBhead : Int) ≤ size)
  let bf := origBuf - sizeofBhead
  let origSize := -(← bsize bf)
  let b := newBuf - sizeofBhead
  if (← prevfree bf) ≠ 0 then do
    -- the previous buffer is free, consolidate with that buffer
    let bfp := offset bf (-(← prevfree bf))
    heapAssert ((← bsize bfp) = (← prevfree bf))
    setBsize bfp ((← bsize bfp) + size)
    setPrevfree b (← bsize bfp)
    setBsize b (-(origSize - size))
  else do
    setBsize b (-(origSize - size))
    createFreeBlock freelist bf size b

/-- The size of a block for a buffer of `size` bytes (`bget_malloc.c:433-441`). The first comparison is
one of unsigned words. -/
def blockSize (size : Int) : Int :=
  let newSize := if size % 2 ^ 32 < sizeQ then (sizeQ : Int) else size
  (newSize + (sizeQuant - 1)) / sizeQuant * sizeQuant + sizeofBhead

/-- `brel_after` (`bget_malloc.c:426-499`), without the statistics. -/
def brelAfter (freelist buf : Nat) (size : Int) : HeapCode Unit := do
  let b := buf - sizeofBhead
  let newSize := blockSize size
  heapAssert (newSize ≤ -(← bsize b))
  let freeSize := -(← bsize b) - newSize
  if freeSize % 2 ^ 32 < sizeQ + sizeofBhead then pure ()
  else do
    let bn := offset b (-(← bsize b))
    setBsize b (-newSize)
    if 0 < (← bsize bn) then do
      -- the next buffer is free, consolidate with that buffer
      let nbf := offset b newSize
      let bnn := offset bn (← bsize bn)
      heapAssert ((← prevfree bn) = 0)
      heapAssert ((← prevfree bnn) = (← bsize bn))
      setPrevfree nbf 0
      setBsize nbf ((← bsize bn) + freeSize)
      setPrevfree bnn ((← prevfree bnn) + freeSize)
      heapAssert ((← flink (← blink bn)) = bn)
      heapAssert ((← blink (← flink bn)) = bn)
      setBlink nbf (← blink bn)
      setFlink nbf (← flink bn)
      setFlink (← blink nbf) nbf
      setBlink (← flink nbf) nbf
    else createFreeBlock freelist (offset b newSize) freeSize bn

/-! ## Requests -/

/-- `bget`, `bgetz` and `bgetr` of `bget.c`: what they do to the memory, and the buffer. -/
structure Bget where
  bget : Word → Bytes → Except Fault (Word × Bytes)
  bgetz : Word → Bytes → Except Fault (Word × Bytes)
  bgetr : Word → Word → Bytes → Except Fault (Word × Bytes)

/-- A request for `s` bytes. -/
def ask (s : Word) (alloc : Bytes → Except Fault (Word × Bytes)) : HeapCode Word :=
  fun m => ⟨[s], alloc m⟩

/-- BGET doesn't like 0 sized allocations (`bget_malloc.c:290-292`). -/
def notZero (s : Word) : Word := if s = 0 then s + 1 else s

/-- `raw_malloc` (`bget_malloc.c:272-300`). The hooks around the body are empty. -/
def rawMalloc (B : Bget) (hdrSize ftrSize plSize : Word) : HeapCode Word :=
  let s := hdrSize + ftrSize + plSize
  if s < plSize then pure 0 else ask (notZero s) (B.bget (notZero s))

/-- `raw_calloc` (`bget_malloc.c:310-332`). -/
def rawCalloc (B : Bget) (hdrSize ftrSize plNmemb plSize : Word) : HeapCode Word :=
  let s := hdrSize + ftrSize + plNmemb * plSize
  if s < plNmemb ∨ s < plSize then pure 0 else ask (notZero s) (B.bgetz (notZero s))

/-- `raw_realloc` (`bget_malloc.c:334-353`). -/
def rawRealloc (B : Bget) (ptr hdrSize ftrSize plSize : Word) : HeapCode Word :=
  let s := hdrSize + ftrSize + plSize
  if s < plSize then pure 0 else ask (notZero s) (B.bgetr ptr (notZero s))

/-- `IS_POWER_OF_TWO` (`util.h:55`). -/
def isPowerOfTwo (x : Word) : Bool := x ≠ 0 && x &&& (~~~x + 1) = x

/-- The point where the buffer including the supplied header should start
(`bget_malloc.c:541-549`). -/
def alignedStart (hdrSize alignment b : Word) : Word :=
  let p := ((b + hdrSize + alignment) &&& ~~~(alignment - 1)) - hdrSize
  if p - b < BitVec.ofNat 32 (sizeQ + sizeofBhead) then p + alignment else p

/-- The front part of the buffer `b` of `s` bytes is freed where it is not aligned
(`bget_malloc.c:532-556`). -/
def releaseFront (freelist : Nat) (hdrSize ftrSize alignment size s b : Word) : HeapCode Word :=
  if (b + hdrSize) &&& (alignment - 1) ≠ 0 then do
    let p := alignedStart hdrSize alignment b
    heapAssert (p + hdrSize + ftrSize + size ≤ b + s)
    brelBefore freelist b.toNat p.toNat
    pure p
  else pure b

/-- `raw_memalign` (`bget_malloc.c:501-566`). -/
def rawMemalign (B : Bget) (freelist : Nat) (hdrSize ftrSize alignment size : Word) : HeapCode Word :=
  if isPowerOfTwo alignment = false then pure 0
  else if alignment ≤ BitVec.ofNat 32 sizeQuant then rawMalloc B hdrSize ftrSize size
  else
    let s := hdrSize + ftrSize + alignment + size + BitVec.ofNat 32 sizeQ + BitVec.ofNat 32 sizeofBhead
    if s < alignment ∨ s < size then pure 0
    else do
      let b ← ask s (B.bget s)
      if b = 0 then pure b
      else do
        let b ← releaseFront freelist hdrSize ftrSize alignment size s b
        brelAfter freelist b.toNat (hdrSize + ftrSize + size).toInt
        pure b

/-! ## Pools -/

/-- `struct malloc_pool` (`bget_malloc.c:136-139`). -/
structure MallocPool where
  buf : Word
  len : Word

/-- `malloc_buffer_overlaps_heap` (`bget_malloc.c:921-949`): the loop over the pools. -/
def mallocBufferOverlapsHeap (buf len : Word) : List MallocPool → Bool
  | [] => false
  | pool :: pools =>
    let bufEnd := buf + len
    let poolEnd := pool.buf + pool.len
    -- wrapping buffers, shouldn't happen
    if bufEnd < buf ∨ poolEnd < pool.buf then true
    else if pool.buf < bufEnd ∨ buf < poolEnd then true
    else mallocBufferOverlapsHeap buf len pools

end SeCloak
