import SeCloak.Heap.Layout

/-!
# Allocating and releasing buffers (`bget.c`)

`bget` takes the first block of the free list that is large enough, or its end if there is room for
another block in front. `brel` gives a block back, together with the free blocks around it. The
options of the configuration (best fit, wiping, expansion blocks, statistics) are off. The loop over
the free list gets fuel. A signed size that overflows is not followed.
-/

namespace SeCloak
open Misc

/-! ## The free list -/

/-- The links that put `b` at the end of the free list (`bget.c:896-901` and `bget.c:1026-1031`). -/
def linkLast (freelist b : Nat) : HeapCode Unit := do
  heapAssert ((← flink (← blink freelist)) = freelist)
  heapAssert ((← blink (← flink freelist)) = freelist)
  setFlink b freelist
  setBlink b (← blink freelist)
  setBlink freelist b
  setFlink (← blink b) b

/-- The links that take `b` out of the free list (`bget.c:670-673` and `bget.c:917-920`). -/
def unlink (b : Nat) : HeapCode Unit := do
  heapAssert ((← flink (← blink b)) = b)
  heapAssert ((← blink (← flink b)) = b)
  setFlink (← blink b) (← flink b)
  setBlink (← flink b) (← blink b)

/-! ## `bget` -/

/-- The block `b` is large enough to satisfy the request (`bget.c:629-688`). -/
def bgetTake (size : Int) (b : Nat) : HeapCode Word := do
  Code.require ((← bsize b) - size < 2 ^ 31) .undefined
  if (sizeQ + sizeofBhead : Int) < (← bsize b) - size then do
    let ba := offset b ((← bsize b) - size)
    let bn := offset ba size
    heapAssert ((← prevfree bn) = (← bsize b))
    setBsize b ((← bsize b) - size)
    setPrevfree ba (← bsize b)
    setBsize ba (-size)
    setPrevfree bn 0
    pure (BitVec.ofNat 32 (ba + sizeofBhead))
  else do
    -- the buffer isn't big enough to split
    let ba := offset b (← bsize b)
    heapAssert ((← prevfree ba) = (← bsize b))
    unlink b
    setBsize b (-(← bsize b))
    setPrevfree ba 0
    pure (BitVec.ofNat 32 (b + sizeofBhead))

/-- The scan of the free list from `b` on (`bget.c:628-691`). -/
def bgetFrom (freelist : Nat) (size : Int) : Nat → Nat → HeapCode Word
  | 0, _ => Code.throw .waiting
  | fuel + 1, b =>
    if b = freelist then pure 0
    else do
      if size ≤ (← bsize b) then bgetTake size b
      else bgetFrom freelist size fuel (← flink b)

/-- `bget` (`bget.c:573-753`). The argument of type `bufsize` is signed, and `sizeof(struct bhead)` is
added as an unsigned number. -/
def bget (freelist fuel : Nat) (requestedSize : Word) : HeapCode Word := do
  let size := requestedSize.toInt
  heapAssert (0 < size)
  Code.require (max size sizeQ + (sizeQuant - 1) < 2 ^ 31) .undefined
  bgetFrom freelist (BitVec.ofInt 32 (blockSize size)).toInt fuel (← flink freelist)

/-! ## `brel` -/

/-- The first part of `brel` (`bget.c:875-903`): the block is given to the free block before it, or
becomes a free block. The block that is free then is returned. -/
def brelPrev (freelist b : Nat) : HeapCode Nat := do
  if (← prevfree b) ≠ 0 then do
    let size := (← bsize b)
    let prev := offset b (-(← prevfree b))
    heapAssert ((← bsize prev) = (← prevfree b))
    setBsize prev ((← bsize prev) - size)
    pure prev
  else do
    linkLast freelist b
    setBsize b (-(← bsize b))
    pure b

/-- The second part (`bget.c:905-931`): the free block `b` takes in the block behind it if that one is
free. The next block is returned. -/
def brelNext (b : Nat) : HeapCode Nat := do
  let bn := offset b (← bsize b)
  if 0 < (← bsize bn) then do
    heapAssert ((← prevfree (offset bn (← bsize bn))) = (← bsize bn))
    unlink bn
    setBsize b ((← bsize b) + (← bsize bn))
    pure (offset b (← bsize b))
  else pure bn

/-- The last part (`bget.c:932-942`): the next block `bn` is told of the free block `b`. -/
def brelLast (b bn : Nat) : HeapCode Unit := do
  heapAssert ((← bsize bn) < 0)
  setPrevfree bn (← bsize b)

/-- `brel` (`bget.c:824-968`). -/
def brel (freelist : Nat) (buf : Word) : HeapCode Unit := do
  let b := buf.toNat - sizeofBhead
  heapAssert (buf ≠ 0)
  heapAssert ((← bsize b) < 0)
  heapAssert ((← prevfree (offset b (-(← bsize b)))) = 0)
  let b ← brelPrev freelist b
  let bn ← brelNext b
  brelLast b bn

/-! ## `bgetz` and `bgetr` -/

/-- `memset(p, 0, n)`. -/
def clearBytes (p n : Nat) : HeapCode Unit :=
  Code.modify fun m x => if p ≤ x ∧ x < p + n then 0 else m x

/-- `memcpy(p, q, n)`. -/
def copyBytes (p q n : Nat) : HeapCode Unit :=
  Code.modify fun m x => if p ≤ x ∧ x < p + n then m (q + (x - p)) else m x

/-- `sizeof(struct bdhead)`. -/
def sizeofBdhead : Nat := 12

/-- `bgetz` (`bget.c:759-782`). A size of zero is that of a buffer that `bget` never gives here. -/
def bgetz (freelist fuel : Nat) (size : Word) : HeapCode Word := do
  let buf ← bget freelist fuel size
  if buf = 0 then pure buf
  else do
    let bs ← bsize (buf.toNat - sizeofBhead)
    let tsize := ((← Code.get).load (buf.toNat - sizeofBdhead)).toInt
    let rsize : Int := if -bs = 0 then tsize - sizeofBdhead else -bs - sizeofBhead
    heapAssert (size.toInt ≤ rsize)
    clearBytes buf.toNat rsize.toNat
    pure buf

/-- `bgetr` (`bget.c:789-820`). -/
def bgetr (freelist fuel : Nat) (buf size : Word) : HeapCode Word := do
  let nbuf ← bget freelist fuel size
  if nbuf = 0 then pure 0
  else if buf = 0 then pure nbuf
  else do
    let osize : Int := -(← bsize (buf.toNat - sizeofBhead)) - sizeofBhead
    heapAssert (0 < osize)
    copyBytes nbuf.toNat buf.toNat (if size.toInt < osize then size.toInt else osize).toNat
    brel freelist buf
    pure nbuf

/-- The functions of `bget.c` on the free list at `freelist`. -/
def theBget (freelist fuel : Nat) : Bget where
  bget s m := (bget freelist fuel s m).result
  bgetz s m := (bgetz freelist fuel s m).result
  bgetr p s m := (bgetr freelist fuel p s m).result

/-! ## The interface (`bget_malloc.c`) -/

/-- `raw_free` (`bget_malloc.c:301-307`). -/
def rawFree (freelist : Nat) (ptr : Word) : HeapCode Unit :=
  if ptr ≠ 0 then brel freelist ptr else pure ()

/-- `malloc`, `free`, `calloc` and `realloc` (`bget_malloc.c:789-831`), between `malloc_lock` and
`malloc_unlock`. -/
def heapMalloc (freelist fuel : Nat) (size : Word) : HeapCode Word :=
  rawMalloc (theBget freelist fuel) 0 0 size

def heapFree (freelist : Nat) (ptr : Word) : HeapCode Unit := rawFree freelist ptr

def heapCalloc (freelist fuel : Nat) (nmemb size : Word) : HeapCode Word :=
  rawCalloc (theBget freelist fuel) 0 0 nmemb size

def heapRealloc (freelist fuel : Nat) (ptr size : Word) : HeapCode Word :=
  rawRealloc (theBget freelist fuel) ptr 0 0 size

/-! ## Pools -/

/-- `bpool` (`bget.c:989-1052`). -/
def bpool (freelist buf : Nat) (len : Int) : HeapCode Unit := do
  let len := len / sizeQuant * sizeQuant
  heapAssert ((len - sizeofBhead) % 2 ^ 32 ≤ -(eSent + 1))
  setPrevfree buf 0
  linkLast freelist buf
  setBsize buf (len - sizeofBhead)
  let bn := offset buf (len - sizeofBhead)
  setPrevfree bn (len - sizeofBhead)
  setBsize bn eSent

end SeCloak
