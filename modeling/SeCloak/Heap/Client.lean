import SeCloak.Heap.Memalign
import SeCloak.Heap.Serve

/-!
# Clients of the heap (`bget_malloc.c:789-831`)

A client calls the functions of the interface and writes to the buffers that it owns. What it knows of
the heap is a list of these buffers with the bytes that it last put there, and that is all it has to
obey: it frees what it owns and asks for less than `2 ^ 31` bytes. Then no assertion fails in any call,
the buffers stay apart from one another and keep their bytes, and nothing is lost when all are freed.
-/

namespace SeCloak
open Misc Code

/-! ## What a client knows -/

/-- A buffer of a client, with its bytes. -/
structure Buffer where
  addr : Nat
  data : List (BitVec 8)

/-- The call of a function of the interface. -/
inductive HeapCall where
  | malloc (size : Word)
  | calloc (nmemb size : Word)
  | realloc (ptr size : Word)
  | free (ptr : Word)

/-- The bytes at an address. -/
def readBytes (m : Bytes) (a n : Nat) : List (BitVec 8) := (List.range n).map fun i => m (a + i)

/-- The bytes of the buffer at `ptr`. -/
def bufferData (ptr : Nat) (bs : List Buffer) : List (BitVec 8) :=
  match bs.find? fun b => b.addr = ptr with
  | some b => b.data
  | none => []

/-- The buffers without the one at `ptr`. -/
def forget (ptr : Nat) (bs : List Buffer) : List Buffer := bs.filter fun b => b.addr ≠ ptr

/-- The buffers after the one at `ptr` has been written. -/
def rewrite (ptr : Nat) (m' : Bytes) (bs : List Buffer) : List Buffer :=
  bs.map fun b => if b.addr = ptr then ⟨b.addr, readBytes m' b.addr b.data.length⟩ else b

namespace HeapCall

def code (freelist fuel : Nat) : HeapCall → HeapCode Word
  | malloc size => heapMalloc freelist fuel size
  | calloc nmemb size => heapCalloc freelist fuel nmemb size
  | realloc ptr size => heapRealloc freelist fuel ptr size
  | free ptr => do
    heapFree freelist ptr
    pure 0

/-- What a client may call. -/
def Allowed (bs : List Buffer) : HeapCall → Prop
  | malloc size => size.toNat + 16 ≤ 2 ^ 31
  | calloc nmemb size => nmemb.toNat * size.toNat + 16 ≤ 2 ^ 31
  | realloc ptr size => (ptr = 0 ∨ ∃ b ∈ bs, b.addr = ptr.toNat) ∧ size.toNat + 16 ≤ 2 ^ 31
  | free ptr => ptr = 0 ∨ ∃ b ∈ bs, b.addr = ptr.toNat

/-- The buffers after the call has returned `r`: new bytes are what is found there, or zero. -/
def track (r : Word) (m' : Bytes) (bs : List Buffer) : HeapCall → List Buffer
  | malloc size => if r = 0 then bs else ⟨r.toNat, readBytes m' r.toNat size.toNat⟩ :: bs
  | calloc nmemb size =>
    if r = 0 then bs else ⟨r.toNat, List.replicate (nmemb.toNat * size.toNat) 0⟩ :: bs
  | realloc ptr size =>
    if r = 0 then bs
    else
      let kept := (bufferData ptr.toNat bs).take size.toNat
      ⟨r.toNat, kept ++ readBytes m' (r.toNat + kept.length) (size.toNat - kept.length)⟩ ::
        forget ptr.toNat bs
  | free ptr => forget ptr.toNat bs

end HeapCall

/-- What clients and the rest of the kernel can do to the memory at `m₀`, from where no buffer is owned. -/
inductive Session (freelist fuel : Nat) (pools : List Span) (m₀ : Bytes) : Bytes → List Buffer → Prop where
  | start : Session freelist fuel pools m₀ m₀ []
  | call {m m' : Bytes} {bs : List Buffer} {c : HeapCall} {w : List Word} {r : Word} :
    Session freelist fuel pools m₀ m bs → c.Allowed bs → Runs (c.code freelist fuel) m w r m' →
      Session freelist fuel pools m₀ m' (c.track r m' bs)
  | write {m m' : Bytes} {bs : List Buffer} {b : Buffer} :
    Session freelist fuel pools m₀ m bs → b ∈ bs →
      (∀ x, x < b.addr ∨ b.addr + b.data.length ≤ x → m' x = m x) →
      Session freelist fuel pools m₀ m' (rewrite b.addr m' bs)
  | other {m m' : Bytes} {bs : List Buffer} :
    Session freelist fuel pools m₀ m bs →
      (∀ x, freelist ≤ x → x < freelist + 16 → m' x = m x) →
      (∀ pool ∈ pools, ∀ x, pool.lo ≤ x → x < pool.hi + sizeofBhead → m' x = m x) →
      Session freelist fuel pools m₀ m' bs

/-! ## The invariant -/

/-- The buffers are in the allocated blocks, one in each, and their bytes are there. -/
structure Owned (m : Bytes) (freelist : Nat) (pools : List Span) (blocks : List Block) (bs : List Buffer) :
    Prop where
  heap : Heap m freelist pools blocks
  own : ∀ b ∈ bs, ∃ block ∈ blocks, block.kind = .allocated ∧ b.addr = block.addr + sizeofBhead ∧
    b.addr + b.data.length ≤ block.stop
  covered : ∀ block ∈ blocks, block.kind = .allocated → ∃ b ∈ bs, b.addr = block.addr + sizeofBhead
  nodup : (bs.map Buffer.addr).Nodup
  holds : ∀ b ∈ bs, ∀ i (hi : i < b.data.length), m (b.addr + i) = b.data[i]

section Owned

variable {m m' : Bytes} {freelist fuel n : Nat} {pools : List Span} {blocks blocks' front back : List Block}
  {bs bs' : List Buffer} {b : Buffer} {r s ptr : Word} {block old : Block} {others : Block → Prop}
  {data : List (BitVec 8)}

/-- The bytes of a buffer whose block keeps them. -/
theorem Owned.holds_of_same (h : Owned m freelist pools blocks bs) (hb : b ∈ bs)
    (haddr : b.addr = block.addr + sizeofBhead) (hend : b.addr + b.data.length ≤ block.stop)
    (hsame : block.SamePayload m m') {i : Nat} (hi : i < b.data.length) : m' (b.addr + i) = b.data[i] := by
  rw [hsame (b.addr + i) (by omega) (by omega), h.holds b hb i hi]

/-- Two blocks at one address are the same. -/
theorem Heap.block_eq (h : Heap m freelist pools blocks) (hblock : block ∈ blocks) (hold : old ∈ blocks)
    (haddr : block.addr = old.addr) : block = old := by
  by_contra hne
  have hapart := h.wellFormed.tiling.apart_of_ne hblock hold hne
  have hpos := (h.wellFormed.tiling.sized block hblock).pos
  have hpos' := (h.wellFormed.tiling.sized old hold).pos
  omega

/-- Some buffers are still there, besides a new one. -/
theorem Owned.granted (h : Owned m freelist pools blocks bs)
    (hg : GivenOut m freelist pools others n r m' blocks' block) (hbs' : bs'.Sublist bs)
    (hin : ∀ b ∈ bs', ∀ c ∈ blocks, b.addr = c.addr + sizeofBhead → others c)
    (hout : ∀ c, others c → c.kind = .allocated → ∃ b ∈ bs', b.addr = c.addr + sizeofBhead)
    (hlen : data.length + sizeofBhead ≤ n)
    (hdata : ∀ i (hi : i < data.length), m' (r.toNat + i) = data[i]) :
    Owned m' freelist pools blocks' (⟨r.toNat, data⟩ :: bs') := by
  have hold : ∀ b ∈ bs', ∃ c, others c ∧ c.kind = .allocated ∧ b.addr = c.addr + sizeofBhead ∧
      b.addr + b.data.length ≤ c.stop := by
    intro b hb
    obtain ⟨c, hc, hkind, haddr, hend⟩ := h.own b (hbs'.subset hb)
    exact ⟨c, hin b hb c hc haddr, hkind, haddr, hend⟩
  refine ⟨hg.heap, ?_, ?_, ?_, ?_⟩
  · intro b hb
    rcases List.mem_cons.mp hb with rfl | hb
    · refine ⟨block, (hg.mem block hg.kind).mpr (Or.inl rfl), hg.kind, hg.addr, ?_⟩
      have hsize := hg.size
      have haddr := hg.addr
      unfold Block.stop
      dsimp only
      omega
    · obtain ⟨c, hc, hkind, haddr, hend⟩ := hold b hb
      exact ⟨c, (hg.mem c hkind).mpr (Or.inr hc), hkind, haddr, hend⟩
  · intro c hc hkind
    rcases (hg.mem c hkind).mp hc with rfl | hc
    · exact ⟨_, List.mem_cons_self, hg.addr⟩
    · obtain ⟨b, hb, haddr⟩ := hout c hc hkind
      exact ⟨b, List.mem_cons_of_mem _ hb, haddr⟩
  · rw [List.map_cons, List.nodup_cons]
    refine ⟨fun hmem => ?_, (hbs'.map _).nodup h.nodup⟩
    obtain ⟨b, hb, haddr⟩ := List.mem_map.mp hmem
    obtain ⟨c, hc, hkind, hcAddr, -⟩ := hold b hb
    have hblockAddr := hg.addr
    have hsame := hg.heap.block_eq ((hg.mem c hkind).mpr (Or.inr hc)) ((hg.mem block hg.kind).mpr (Or.inl rfl))
      (by dsimp only at haddr; omega)
    exact hg.new (hsame ▸ hc)
  · intro b hb i hi
    rcases List.mem_cons.mp hb with rfl | hb
    · exact hdata i hi
    · obtain ⟨c, hc, hkind, haddr, hend⟩ := hold b hb
      exact h.holds_of_same (hbs'.subset hb) haddr hend (hg.contents c hc hkind) hi

/-- Some buffers are still there. -/
theorem Owned.released (h : Owned m freelist pools blocks bs) (hheap : Heap m' freelist pools blocks')
    (hbs' : bs'.Sublist bs)
    (hin : ∀ b ∈ bs', ∀ c ∈ blocks, c.kind = .allocated → b.addr = c.addr + sizeofBhead →
      c ∈ blocks' ∧ c.SamePayload m m')
    (hout : ∀ c ∈ blocks', c.kind = .allocated → ∃ b ∈ bs', b.addr = c.addr + sizeofBhead) :
    Owned m' freelist pools blocks' bs' := by
  have hold : ∀ b ∈ bs', ∃ c ∈ blocks', c.SamePayload m m' ∧ c.kind = .allocated ∧
      b.addr = c.addr + sizeofBhead ∧ b.addr + b.data.length ≤ c.stop := by
    intro b hb
    obtain ⟨c, hc, hkind, haddr, hend⟩ := h.own b (hbs'.subset hb)
    obtain ⟨hc', hsame⟩ := hin b hb c hc hkind haddr
    exact ⟨c, hc', hsame, hkind, haddr, hend⟩
  refine ⟨hheap, fun b hb => ?_, hout, (hbs'.map _).nodup h.nodup, fun b hb i hi => ?_⟩
  · obtain ⟨c, hc, -, hrest⟩ := hold b hb
    exact ⟨c, hc, hrest⟩
  · obtain ⟨c, -, hsame, -, haddr, hend⟩ := hold b hb
    exact h.holds_of_same (hbs'.subset hb) haddr hend hsame hi

/-- The buffer at `ptr` is in a block. -/
theorem Owned.block_of (h : Owned m freelist pools blocks bs) (hptr : ∃ b ∈ bs, b.addr = ptr.toNat) :
    ∃ old ∈ blocks, old.kind = .allocated ∧ ptr.toNat = old.addr + sizeofBhead := by
  obtain ⟨b, hb, haddr⟩ := hptr
  obtain ⟨old, hold, hkind, hbAddr, -⟩ := h.own b hb
  exact ⟨old, hold, hkind, haddr ▸ hbAddr⟩

/-- The buffers but for the one of a block. -/
theorem Owned.mem_forget (h : Owned m freelist pools blocks bs) (hold : old ∈ blocks)
    (haddr : ptr.toNat = old.addr + sizeofBhead) :
    (∀ b ∈ forget ptr.toNat bs, ∀ c ∈ blocks, b.addr = c.addr + sizeofBhead → c ∈ blocks ∧ c ≠ old) ∧
      ∀ c, c ∈ blocks ∧ c ≠ old → c.kind = .allocated →
        ∃ b ∈ forget ptr.toNat bs, b.addr = c.addr + sizeofBhead := by
  constructor
  · intro b hb c hc hbAddr
    refine ⟨hc, ?_⟩
    rintro rfl
    have hne := (List.mem_filter.mp hb).2
    rw [decide_eq_true_iff] at hne
    exact hne (hbAddr.trans haddr.symm)
  · rintro c ⟨hc, hne⟩ hkind
    obtain ⟨b, hb, hbAddr⟩ := h.covered c hc hkind
    refine ⟨b, List.mem_filter.mpr ⟨hb, decide_eq_true_iff.mpr fun heq => hne ?_⟩, hbAddr⟩
    exact h.heap.block_eq hc hold (by omega)

/-- There is no buffer at address zero. -/
theorem Owned.forget_null (h : Owned m freelist pools blocks bs) : forget 0 bs = bs := by
  refine List.filter_eq_self.mpr fun b hb => decide_eq_true_iff.mpr ?_
  obtain ⟨c, -, -, haddr, -⟩ := h.own b hb
  simp only [sizeofBhead] at haddr
  omega

end Owned

/-! ## The calls -/

section Calls

variable {m m' : Bytes} {freelist fuel n : Nat} {pools : List Span} {blocks blocks' : List Block}
  {bs : List Buffer} {c : HeapCall} {nmemb r s ptr : Word} {Q : Word → Bytes → Prop}

theorem returns_ask_iff {code : HeapCode Word} :
    Returns (ask s fun m => (code m).result) m Q ↔ Returns code m Q := by
  constructor
  · rintro ⟨w, a, m', hrun, hQ⟩
    have hres : (code m).result = .ok (a, m') := congrArg Outcome.result hrun
    exact ⟨(code m).events, a, m', congrArg (Outcome.mk (code m).events) hres, hQ⟩
  · rintro ⟨w, a, m', hrun, hQ⟩
    have hres : (code m).result = .ok (a, m') := congrArg Outcome.result hrun
    exact (returns_ask hres).mpr hQ

theorem toNat_notZero (s : Word) : (notZero s).toNat = max 1 s.toNat := by
  unfold notZero
  split
  · rename_i hzero
    subst hzero
    rfl
  · rename_i hzero
    have hpos : s.toNat ≠ 0 := fun h => hzero (BitVec.eq_of_toNat_eq h)
    omega

theorem blockBytes_notZero (s : Word) : blockBytes (notZero s).toNat = blockBytes s.toNat := by
  rw [toNat_notZero]
  unfold blockBytes
  simp only [sizeQ]
  congr 4
  omega

/-- The interface adds no header and no footer. -/
theorem noHeader (s : Word) : 0 + 0 + s = s := by simp

theorem returns_heapMalloc : Returns (heapMalloc freelist fuel s) m Q ↔
    Returns (bget freelist fuel (notZero s)) m Q := by
  rw [heapMalloc, rawMalloc, noHeader, if_neg (by simp)]
  exact returns_ask_iff

theorem returns_heapRealloc : Returns (heapRealloc freelist fuel ptr s) m Q ↔
    Returns (bgetr freelist fuel ptr (notZero s)) m Q := by
  rw [heapRealloc, rawRealloc, noHeader, if_neg (by simp)]
  exact returns_ask_iff

theorem returns_heapCalloc : Returns (heapCalloc freelist fuel nmemb s) m Q ↔
    if nmemb * s < nmemb ∨ nmemb * s < s then Q 0 m
    else Returns (bgetz freelist fuel (notZero (nmemb * s))) m Q := by
  rw [heapCalloc, rawCalloc, noHeader]
  split
  · exact returns_pure_iff
  · exact returns_ask_iff

/-- A buffer of the bytes that are found there. -/
theorem readBytes_holds {a i : Nat} (hi : i < (readBytes m a n).length) :
    m (a + i) = (readBytes m a n)[i] := by
  simp [readBytes]

theorem length_readBytes {a : Nat} : (readBytes m a n).length = n := by simp [readBytes]

/-- A new buffer beside all the others. -/
theorem Owned.grantedNew {block : Block} {data : List (BitVec 8)} (h : Owned m freelist pools blocks bs)
    (hg : GivenOut m freelist pools (· ∈ blocks) n r m' blocks' block)
    (hlen : data.length + sizeofBhead ≤ n)
    (hdata : ∀ i (hi : i < data.length), m' (r.toNat + i) = data[i]) :
    Owned m' freelist pools blocks' (⟨r.toNat, data⟩ :: bs) :=
  h.granted hg (List.Sublist.refl bs) (fun _ _ _ hc _ => hc) h.covered hlen hdata

theorem GivenOut.ne_null {others : Block → Prop} {block : Block}
    (h : GivenOut m freelist pools others n r m' blocks' block) : r ≠ 0 := by
  rintro rfl
  have haddr := h.addr
  simp [sizeofBhead] at haddr

theorem Owned.malloc (h : Owned m freelist pools blocks bs) (hfuel : 2 ^ 29 < fuel)
    (hs : s.toNat + 16 ≤ 2 ^ 31) :
    Returns (heapMalloc freelist fuel s) m fun r m' =>
      (∃ blocks', Owned m' freelist pools blocks' ((HeapCall.malloc s).track r m' bs)) ∧ (r = 0 → m' = m) := by
  have hsize := toNat_notZero s
  rw [returns_heapMalloc]
  refine (bget_serves h.heap (by omega) (by omega) hfuel).imp ?_
  rintro r m' (⟨rfl, rfl, -⟩ | ⟨front, a, z, back, htaken, -⟩)
  · exact ⟨⟨blocks, h⟩, fun _ => rfl⟩
  have hg := htaken.granted
  rw [HeapCall.track, if_neg hg.ne_null]
  have hfits := le_blockBytes (notZero s).toNat
  refine ⟨⟨_, h.grantedNew hg ?_ fun i hi => readBytes_holds hi⟩, fun hnull => absurd hnull hg.ne_null⟩
  rw [length_readBytes, sizeofBhead]
  omega

theorem Owned.calloc (h : Owned m freelist pools blocks bs) (hfuel : 2 ^ 29 < fuel)
    (hs : nmemb.toNat * s.toNat + 16 ≤ 2 ^ 31) :
    Returns (heapCalloc freelist fuel nmemb s) m fun r m' =>
      (∃ blocks', Owned m' freelist pools blocks' ((HeapCall.calloc nmemb s).track r m' bs)) ∧ (r = 0 → m' = m) := by
  have hprod : (nmemb * s).toNat = nmemb.toNat * s.toNat := by
    rw [BitVec.toNat_mul, Nat.mod_eq_of_lt (by omega)]
  have hsize := toNat_notZero (nmemb * s)
  rw [returns_heapCalloc]
  split
  · exact ⟨⟨blocks, h⟩, fun _ => rfl⟩
  refine (bgetz_serves h.heap (by omega) (by omega) hfuel).imp ?_
  rintro r m' (⟨rfl, rfl, -⟩ | ⟨blocks', block, hg, hzero, -⟩)
  · exact ⟨⟨blocks, h⟩, fun _ => rfl⟩
  rw [HeapCall.track, if_neg hg.ne_null]
  have hfits := le_blockBytes (notZero (nmemb * s)).toNat
  have hblock := hg.size
  have haddr := hg.addr
  refine ⟨⟨_, h.grantedNew hg ?_ fun i hi => ?_⟩, fun hnull => absurd hnull hg.ne_null⟩
  · rw [List.length_replicate, sizeofBhead]
    omega
  · rw [List.length_replicate] at hi
    rw [List.getElem_replicate]
    refine hzero _ (Nat.le_add_right _ _) ?_
    simp only [sizeofBhead] at haddr
    unfold Block.stop
    omega

/-- The bytes of a buffer, by its address. -/
theorem bufferData_eq (hptr : ∃ b ∈ bs, b.addr = ptr.toNat) :
    ∃ b ∈ bs, b.addr = ptr.toNat ∧ bufferData ptr.toNat bs = b.data := by
  obtain ⟨b, hb, haddr⟩ := hptr
  have hfind : (bs.find? fun b => b.addr = ptr.toNat).isSome :=
    List.find?_isSome.mpr ⟨b, hb, decide_eq_true_iff.mpr haddr⟩
  obtain ⟨b', hb'⟩ := Option.isSome_iff_exists.mp hfind
  refine ⟨b', List.mem_of_find?_eq_some hb', by simpa using List.find?_some hb', ?_⟩
  rw [bufferData, hb']

theorem Owned.bufferData_null (h : Owned m freelist pools blocks bs) : bufferData 0 bs = [] := by
  have hfind : (bs.find? fun b => b.addr = 0) = none := by
    refine List.find?_eq_none.mpr fun b hb => ?_
    obtain ⟨block, -, -, haddr, -⟩ := h.own b hb
    rw [decide_eq_true_iff]
    simp only [sizeofBhead] at haddr
    omega
  rw [bufferData, hfind]

/-- `bgetr` of no buffer is `bget`. -/
theorem returns_bgetr_null :
    Returns (bgetr freelist fuel 0 s) m Q ↔ Returns (bget freelist fuel s) m Q := by
  rw [bgetr, returns_bind_iff]
  refine ⟨fun h => h.imp fun r m' hr => ?_, fun h => h.imp fun r m' hr => ?_⟩
  · split at hr
    · rename_i hnull
      rw [hnull]
      exact returns_pure_iff.mp hr
    · exact returns_pure_iff.mp hr
  · split
    · rename_i hnull
      rw [hnull] at hr
      exact returns_pure_iff.mpr hr
    · exact returns_pure_iff.mpr hr

theorem Owned.realloc (h : Owned m freelist pools blocks bs) (hfuel : 2 ^ 29 < fuel)
    (hptr : ptr = 0 ∨ ∃ b ∈ bs, b.addr = ptr.toNat) (hs : s.toNat + 16 ≤ 2 ^ 31) :
    Returns (heapRealloc freelist fuel ptr s) m fun r m' =>
      (∃ blocks', Owned m' freelist pools blocks' ((HeapCall.realloc ptr s).track r m' bs)) ∧
        (r = 0 → m' = m) := by
  have hsize := toNat_notZero s
  have hfits := le_blockBytes (notZero s).toNat
  rw [returns_heapRealloc]
  rcases hptr with rfl | hptr
  · rw [returns_bgetr_null]
    refine (bget_serves h.heap (by omega) (by omega) hfuel).imp ?_
    rintro r m' (⟨rfl, rfl, -⟩ | ⟨front, a, z, back, htaken, -⟩)
    · exact ⟨⟨blocks, h⟩, fun _ => rfl⟩
    have hg := htaken.granted
    have hzero : (0 : Word).toNat = 0 := rfl
    simp only [HeapCall.track, if_neg hg.ne_null, hzero, h.bufferData_null, h.forget_null,
      List.take_nil, List.length_nil, List.nil_append, Nat.add_zero, Nat.sub_zero]
    refine ⟨⟨_, h.grantedNew hg ?_ fun i hi => readBytes_holds hi⟩, fun hnull => absurd hnull hg.ne_null⟩
    rw [length_readBytes, sizeofBhead]
    omega
  · obtain ⟨b, hb, hbAddr, hbData⟩ := bufferData_eq hptr
    obtain ⟨old, hold, hkind, haddr, hend⟩ := h.own b hb
    rw [hbAddr] at haddr
    refine (bgetr_serves h.heap (by omega) (by omega) hfuel hold hkind haddr).imp ?_
    rintro r m' (⟨rfl, rfl, -⟩ | ⟨blocks', block, hg, hcopy, -⟩)
    · exact ⟨⟨blocks, h⟩, fun _ => rfl⟩
    obtain ⟨hin, hout⟩ := h.mem_forget hold haddr
    simp only [HeapCall.track, if_neg hg.ne_null, hbData]
    have hlen : (b.data.take s.toNat).length = min s.toNat b.data.length := List.length_take ..
    refine ⟨⟨_, h.granted hg List.filter_sublist hin hout ?_ fun i hi => ?_⟩,
      fun hnull => absurd hnull hg.ne_null⟩
    · rw [List.length_append, length_readBytes, sizeofBhead]
      omega
    · by_cases hkept : i < (b.data.take s.toNat).length
      · rw [List.getElem_append_left hkept, List.getElem_take, hcopy i (by omega) (by omega), ← hbAddr,
          h.holds b hb i (by omega)]
      · rw [List.getElem_append_right (by omega), ← readBytes_holds, Nat.add_assoc,
          Nat.add_sub_cancel' (by omega)]

theorem Owned.free (h : Owned m freelist pools blocks bs)
    (hptr : ptr = 0 ∨ ∃ b ∈ bs, b.addr = ptr.toNat) :
    Returns (heapFree freelist ptr) m fun _ m' =>
      ∃ blocks', Owned m' freelist pools blocks' (forget ptr.toNat bs) := by
  rw [heapFree, rawFree]
  rcases hptr with rfl | hptr
  · rw [if_neg (by simp)]
    have hzero : (0 : Word).toNat = 0 := rfl
    refine returns_pure ⟨blocks, ?_⟩
    rw [hzero, h.forget_null]
    exact h
  · obtain ⟨old, hold, hkind, haddr⟩ := h.block_of hptr
    obtain ⟨hin, hout⟩ := h.mem_forget hold haddr
    have hne : ptr ≠ 0 := by
      rintro rfl
      simp [sizeofBhead] at haddr
    rw [if_pos hne]
    obtain ⟨front, back, rfl⟩ := List.append_of_mem hold
    obtain ⟨a, z, kind⟩ := old
    obtain rfl : kind = .allocated := hkind
    refine (brel_serves h.heap haddr).imp ?_
    rintro - m' ⟨blocks', hheap, hsame, hcontents⟩
    have hsides : ∀ c, c ∈ front ++ back → c ∈ front ++ ⟨a, z, .allocated⟩ :: back ∧ c ≠ ⟨a, z, .allocated⟩ := by
      intro c hc
      refine ⟨?_, (h.heap.wellFormed.tiling.beside_of_mem hc).1⟩
      simp only [List.mem_append, List.mem_cons] at hc ⊢
      exact hc.imp_right Or.inr
    refine ⟨blocks', h.released hheap List.filter_sublist (fun b hb c hc hcKind hbAddr => ?_)
      fun c hc hcKind => hout c (hsides c ((hsame c hcKind).mp hc)) hcKind⟩
    have hmem : c ∈ front ++ back := by
      obtain ⟨hc, hne⟩ := hin b hb c hc hbAddr
      simp only [List.mem_append, List.mem_cons] at hc ⊢
      exact hc.imp_right fun hc => hc.resolve_left hne
    exact ⟨(hsame c hcKind).mpr hmem, hcontents c hmem hcKind⟩

/-- A call that is allowed returns, and the buffers are as the client expects. -/
theorem Owned.call (h : Owned m freelist pools blocks bs) (hfuel : 2 ^ 29 < fuel) (hc : c.Allowed bs) :
    Returns (c.code freelist fuel) m fun r m' =>
      (∃ blocks', Owned m' freelist pools blocks' (c.track r m' bs)) ∧
        ((∀ ptr, c ≠ .free ptr) → r = 0 → m' = m) := by
  cases c with
  | malloc size => exact (h.malloc hfuel hc).imp fun r m' hm' => ⟨hm'.1, fun _ => hm'.2⟩
  | calloc nmemb size => exact (h.calloc hfuel hc).imp fun r m' hm' => ⟨hm'.1, fun _ => hm'.2⟩
  | realloc ptr size => exact (h.realloc hfuel hc.1 hc.2).imp fun r m' hm' => ⟨hm'.1, fun _ => hm'.2⟩
  | free ptr =>
    refine returns_bind (h.free hc) fun _ m' hm' => returns_pure ⟨hm', fun hnot => ?_⟩
    exact absurd rfl (hnot ptr)

end Calls

/-! ## Sessions -/

section Sessions

variable {m m' m₀ : Bytes} {freelist fuel : Nat} {pools : List Span} {blocks blocks₀ : List Block}
  {bs : List Buffer} {b : Buffer} {s : Word} {c : HeapCall}

/-- A buffer is written. -/
theorem Owned.write (h : Owned m freelist pools blocks bs) (hb : b ∈ bs)
    (hsame : ∀ x, x < b.addr ∨ b.addr + b.data.length ≤ x → m' x = m x) :
    Owned m' freelist pools blocks (rewrite b.addr m' bs) := by
  obtain ⟨c, hc, hkind, haddr, hend⟩ := h.own b hb
  have hmem : ∀ b' ∈ rewrite b.addr m' bs, ∃ d ∈ bs, b'.addr = d.addr ∧
      b'.data.length = d.data.length := by
    intro b' hb'
    obtain ⟨d, hd, rfl⟩ := List.mem_map.mp hb'
    refine ⟨d, hd, ?_⟩
    split
    · exact ⟨rfl, length_readBytes⟩
    · exact ⟨rfl, rfl⟩
  have haddrs : (rewrite b.addr m' bs).map Buffer.addr = bs.map Buffer.addr := by
    rw [rewrite, List.map_map]
    refine List.map_congr_left fun d _ => ?_
    rw [Function.comp_apply]
    split
    · rfl
    · rfl
  have hheap : Heap m' freelist pools blocks := by
    obtain ⟨front, back, rfl⟩ := List.append_of_mem hc
    obtain ⟨a, z, kind⟩ := c
    obtain rfl : kind = .allocated := hkind
    simp only [Block.stop, sizeofBhead] at haddr hend
    exact h.heap.write fun x hx => hsame x (by omega)
  refine ⟨hheap, fun b' hb' => ?_, fun d hd hdKind => ?_, haddrs ▸ h.nodup, fun b' hb' j hj => ?_⟩
  · obtain ⟨d, hd, hdAddr, hdLen⟩ := hmem b' hb'
    obtain ⟨e, he, heKind, heAddr, heEnd⟩ := h.own d hd
    exact ⟨e, he, heKind, hdAddr.trans heAddr, by omega⟩
  · obtain ⟨b', hb', hb'Addr⟩ := h.covered d hd hdKind
    have hin : b'.addr ∈ (rewrite b.addr m' bs).map Buffer.addr := haddrs ▸ List.mem_map_of_mem hb'
    obtain ⟨b'', hb'', heq⟩ := List.mem_map.mp hin
    exact ⟨b'', hb'', heq.trans hb'Addr⟩
  · obtain ⟨d, hd, rfl⟩ := List.mem_map.mp hb'
    by_cases hself : d.addr = b.addr
    · simp only [if_pos hself] at hj ⊢
      exact readBytes_holds hj
    · simp only [if_neg hself] at hj ⊢
      obtain ⟨e, he, heKind, heAddr, heEnd⟩ := h.own d hd
      have hne : e ≠ c := by
        rintro rfl
        exact hself (heAddr.trans haddr.symm)
      have hapart := h.heap.wellFormed.tiling.apart_of_ne he hc hne
      rw [hsame _ (by omega)]
      exact h.holds d hd j hj

/-- Nothing of the heap depends on the memory outside. -/
theorem Heap.other (h : Heap m freelist pools blocks)
    (hhead : ∀ x, freelist ≤ x → x < freelist + 16 → m' x = m x)
    (hpools : ∀ pool ∈ pools, ∀ x, pool.lo ≤ x → x < pool.hi + sizeofBhead → m' x = m x) :
    Heap m' freelist pools blocks ∧ ∀ block ∈ blocks, ∀ x, block.addr ≤ x → x < block.stop → m' x = m x := by
  have htiling := h.wellFormed.tiling
  have hblock : ∀ block ∈ blocks, ∀ x, block.addr ≤ x → x < block.stop → m' x = m x := by
    intro block hb x hlo hhi
    obtain ⟨pool, hpool, hle, hend, -⟩ :=
      @mem_outline _ none _ htiling.follows htiling.ends htiling.sized (by simp) hb
    exact hpools pool (h.pools ▸ hpool) x (by omega) (by omega)
  refine ⟨⟨⟨htiling, ?_, ?_⟩, h.aligned, h.pools⟩, hblock⟩
  · refine h.wellFormed.headers.frame (S := fun x => m' x = m x) (fun b hb x hlo hhi => ?_) fun _ hx => hx
    have hpos := (htiling.sized b hb).pos
    exact hblock b hb x hlo (by omega)
  · obtain ⟨nodes, hperm, hring⟩ := h.wellFormed.list
    refine ⟨nodes, hperm, ring_frame hring fun x hx y hlo hhi => ?_⟩
    rcases List.mem_cons.mp hx with rfl | hx
    · exact hhead y (by omega) hhi
    · obtain ⟨b, hb, hkind, rfl⟩ := mem_freeAddrs.mp (hperm.subset hx)
      have hroom := ((htiling.sized b hb).room (by simp [hkind])).1
      exact hblock b hb y (by omega) (by omega)

/-- The invariant holds throughout. -/
theorem Session.owned (h : Session freelist fuel pools m₀ m bs) (h₀ : Heap m₀ freelist pools blocks₀)
    (hfree : ∀ b ∈ blocks₀, b.kind ≠ .allocated) (hfuel : 2 ^ 29 < fuel) :
    ∃ blocks, Owned m freelist pools blocks bs := by
  induction h with
  | start =>
    exact ⟨blocks₀, h₀, by simp, fun b hb hkind => absurd hkind (hfree b hb), by simp, by simp⟩
  | call _ hallowed hrun ih =>
    obtain ⟨blocks, howned⟩ := ih
    exact ((howned.call hfuel hallowed).of_runs hrun).1
  | write _ hb hsame ih =>
    obtain ⟨blocks, howned⟩ := ih
    exact ⟨blocks, howned.write hb hsame⟩
  | other _ hhead hpools ih =>
    obtain ⟨blocks, howned⟩ := ih
    obtain ⟨hheap, hblock⟩ := howned.heap.other hhead hpools
    refine ⟨blocks, howned.released hheap (List.Sublist.refl _) (fun b _ c hc _ _ => ⟨hc, fun x hlo hhi => ?_⟩)
      howned.covered⟩
    exact hblock c hc x (by omega) hhi

/-- A new buffer is given if there is room for it. -/
theorem heapRealloc_serves (h : Heap m freelist pools blocks) (hfuel : 2 ^ 29 < fuel)
    (hs : s.toNat + 16 ≤ 2 ^ 31) (hroom : ¬ Exhausted blocks (blockBytes s.toNat)) :
    ∃ w r m', Runs (heapRealloc freelist fuel 0 s) m w r m' ∧ r ≠ 0 := by
  have hsize := toNat_notZero s
  have hserves : Returns (heapRealloc freelist fuel 0 s) m fun r _ => r ≠ 0 := by
    rw [returns_heapRealloc, returns_bgetr_null]
    refine (bget_serves h (by omega) (by omega) hfuel).imp ?_
    rw [blockBytes_notZero]
    rintro r m' (⟨-, -, hnone⟩ | ⟨front, a, z, back, htaken, -⟩)
    · exact absurd hnone hroom
    · exact htaken.granted.ne_null
  exact hserves

theorem heap_oneFree (m : Bytes) : Heap (oneFree m) 0x8000 [⟨0x1000, 0x1098⟩]
    [⟨0x1000, 152, .free⟩, ⟨0x1098, 8, .sentinel⟩] where
  wellFormed := wellFormed_oneFree m
  aligned := by simp [sizeQuant]
  pools := rfl

/-- A client takes a buffer and gives it back. -/
theorem exists_session : ∃ m b m',
    Session 0x8000 (2 ^ 29 + 1) [⟨0x1000, 0x1098⟩] (oneFree fun _ => 0) m [b] ∧
      Session 0x8000 (2 ^ 29 + 1) [⟨0x1000, 0x1098⟩] (oneFree fun _ => 0) m' [] := by
  have hheap := heap_oneFree fun _ => 0
  obtain ⟨w, r, m, hrun, hne⟩ := heapRealloc_serves hheap (by decide : 2 ^ 29 < 2 ^ 29 + 1) (s := 100)
    (by decide) (by simp [Exhausted, blockBytes, sizeQ, sizeQuant, sizeofBhead])
  have hstart : Session 0x8000 (2 ^ 29 + 1) [⟨0x1000, 0x1098⟩] (oneFree fun _ => 0) (oneFree fun _ => 0) [] :=
    .start
  have hsession := hstart.call (c := .realloc 0 100) ⟨Or.inl rfl, by decide⟩ hrun
  have htrack : (HeapCall.realloc 0 100).track r m [] = [⟨r.toNat, readBytes m r.toNat 100⟩] := by
    simp only [HeapCall.track, if_neg hne]
    rfl
  rw [htrack] at hsession
  obtain ⟨blocks, howned⟩ := hsession.owned hheap (by simp) (by decide)
  have hallowed : (HeapCall.free r).Allowed [⟨r.toNat, readBytes m r.toNat 100⟩] :=
    Or.inr ⟨_, List.mem_cons_self, rfl⟩
  obtain ⟨w', r', m', hrun', -⟩ := howned.call (by decide : 2 ^ 29 < 2 ^ 29 + 1) hallowed
  refine ⟨m, _, m', hsession, ?_⟩
  have hnone : (HeapCall.free r).track r' m' [⟨r.toNat, readBytes m r.toNat 100⟩] = [] := by
    simp [HeapCall.track, forget]
  exact hnone ▸ hsession.call hallowed hrun'

/-! ## What a client relies on -/

/-- The buffers share no byte, are aligned and in the pools, and hold what the client put there. -/
theorem session_buffers (h₀ : Heap m₀ freelist pools blocks₀) (hfree : ∀ b ∈ blocks₀, b.kind ≠ .allocated)
    (hfuel : 2 ^ 29 < fuel) (h : Session freelist fuel pools m₀ m bs) :
    (bs.Pairwise fun b c => b.addr + b.data.length ≤ c.addr ∨ c.addr + c.data.length ≤ b.addr) ∧
      ∀ b ∈ bs, sizeQuant ∣ b.addr ∧
        (∃ pool ∈ pools, pool.lo ≤ b.addr ∧ b.addr + b.data.length ≤ pool.hi) ∧
        ∀ i (hi : i < b.data.length), m (b.addr + i) = b.data[i] := by
  obtain ⟨blocks, howned⟩ := h.owned h₀ hfree hfuel
  have htiling := howned.heap.wellFormed.tiling
  refine ⟨?_, fun b hb => ?_⟩
  · have hne : bs.Pairwise fun b c => b.addr ≠ c.addr := List.pairwise_map.mp howned.nodup
    refine hne.imp_of_mem fun {b c} hb hc hbc => ?_
    obtain ⟨x, hx, -, hbAddr, hbEnd⟩ := howned.own b hb
    obtain ⟨y, hy, -, hcAddr, hcEnd⟩ := howned.own c hc
    have hxy : x ≠ y := by
      rintro rfl
      exact hbc (hbAddr.trans hcAddr.symm)
    have hapart := htiling.apart_of_ne hx hy hxy
    omega
  · obtain ⟨x, hx, hkind, haddr, hend⟩ := howned.own b hb
    obtain ⟨pool, hpool, hlo, -, hhi⟩ :=
      @mem_outline _ none _ htiling.follows htiling.ends htiling.sized (by simp) hx
    have hhi := hhi (by simp [hkind])
    refine ⟨?_, ⟨pool, howned.heap.pools ▸ hpool, by omega, by omega⟩, howned.holds b hb⟩
    rw [haddr]
    exact Nat.dvd_add (howned.heap.aligned x hx).1 (by decide)

/-- A client takes a buffer of zeros and another one, fills the first and lets it grow. -/
def zerosTaken : Bytes := ((HeapCall.calloc 4 4).code 0x8000 (2 ^ 29 + 1)).after (oneFree fun _ => 0)
def secondTaken : Bytes := ((HeapCall.malloc 16).code 0x8000 (2 ^ 29 + 1)).after zerosTaken
def firstFilled : Bytes := fun x => if 0x1088 ≤ x ∧ x < 0x1098 then 7 else secondTaken x
def firstGrown : Bytes := ((HeapCall.realloc 0x1088 24).code 0x8000 (2 ^ 29 + 1)).after firstFilled

theorem runs_of_result {c : HeapCode Word} {m : Bytes} (h : (c m).result.toOption.map (·.1) = some r) :
    Runs c m (c m).events r (c.after m) := by
  have hsucceeds : c.succeeds m = true := by
    unfold Code.succeeds
    cases hresult : (c m).result with
    | error e =>
      rw [hresult] at h
      cases h
    | ok a => rfl
  obtain ⟨a, hrun⟩ := runs_after hsucceeds
  have hresult : (c m).result = .ok (a, c.after m) := congrArg Outcome.result hrun
  rw [hresult] at h
  obtain rfl : a = r := Option.some.inj h
  exact hrun

/-- The session, with the buffers that there are at its end. -/
theorem session_grown : Session 0x8000 (2 ^ 29 + 1) [⟨0x1000, 0x1098⟩] (oneFree fun _ => 0) firstGrown
    [⟨0x1050, List.replicate 16 7 ++ readBytes firstGrown 0x1060 8⟩, ⟨0x1070, readBytes secondTaken 0x1070 16⟩] := by
  have hstart : Session 0x8000 (2 ^ 29 + 1) [⟨0x1000, 0x1098⟩] (oneFree fun _ => 0) (oneFree fun _ => 0) [] :=
    .start
  have hzeros := hstart.call (c := .calloc 4 4) (r := 0x1088) (show 4 * 4 + 16 ≤ 2 ^ 31 by decide)
    (runs_of_result (by decide +kernel))
  have hbesides := hzeros.call (c := .malloc 16) (r := 0x1070) (show 16 + 16 ≤ 2 ^ 31 by decide)
    (runs_of_result (by decide +kernel))
  have hkept : ∀ x, x < 0x1088 ∨ 0x1088 + 16 ≤ x → firstFilled x = secondTaken x := fun x hx => if_neg (by omega)
  have hfilled := hbesides.write (b := ⟨0x1088, List.replicate 16 0⟩)
    (List.mem_cons_of_mem _ List.mem_cons_self) hkept
  exact hfilled.call (c := .realloc 0x1088 24) (r := 0x1050)
    ⟨Or.inr ⟨_, List.mem_cons_of_mem _ List.mem_cons_self, rfl⟩, by decide⟩
    (runs_of_result (by decide +kernel))

theorem session_buffers_two : ∃ m b c,
    Session 0x8000 (2 ^ 29 + 1) [⟨0x1000, 0x1098⟩] (oneFree fun _ => 0) m [b, c] ∧
      b.data.take 16 = List.replicate 16 7 ∧
      ([b, c].Pairwise fun b c => b.addr + b.data.length ≤ c.addr ∨ c.addr + c.data.length ≤ b.addr) ∧
      ∀ b' ∈ [b, c], sizeQuant ∣ b'.addr ∧
        (∃ pool ∈ [(⟨0x1000, 0x1098⟩ : Span)], pool.lo ≤ b'.addr ∧ b'.addr + b'.data.length ≤ pool.hi) ∧
        ∀ i (hi : i < b'.data.length), m (b'.addr + i) = b'.data[i] :=
  ⟨firstGrown, _, _, session_grown, rfl, session_buffers (heap_oneFree _) (by simp) (by decide) session_grown⟩

/-- Every call that is allowed returns: no assertion fails. A request that is refused changes nothing. -/
theorem session_call_returns (h₀ : Heap m₀ freelist pools blocks₀)
    (hfree : ∀ b ∈ blocks₀, b.kind ≠ .allocated) (hfuel : 2 ^ 29 < fuel)
    (h : Session freelist fuel pools m₀ m bs) (hc : c.Allowed bs) :
    Returns (c.code freelist fuel) m fun r m' => (∀ ptr, c ≠ .free ptr) → r = 0 → m' = m := by
  obtain ⟨blocks, howned⟩ := h.owned h₀ hfree hfuel
  exact (howned.call hfuel hc).imp fun r m' hm' => hm'.2

theorem session_call_returns_one : ∃ m b,
    Session 0x8000 (2 ^ 29 + 1) [⟨0x1000, 0x1098⟩] (oneFree fun _ => 0) m [b] ∧
      Returns ((HeapCall.malloc 16).code 0x8000 (2 ^ 29 + 1)) m fun r m' =>
        (∀ ptr, HeapCall.malloc 16 ≠ .free ptr) → r = 0 → m' = m := by
  obtain ⟨m, b, -, hsession, -⟩ := exists_session
  exact ⟨m, b, hsession, session_call_returns (heap_oneFree _) (by simp) (by decide) hsession
    (show (16 : Word).toNat + 16 ≤ 2 ^ 31 by decide)⟩

/-- A heap without allocated blocks is made of free pools. -/
theorem Heap.blocks_of_free (h : Heap m freelist pools blocks) (hfree : ∀ b ∈ blocks, b.kind ≠ .allocated) :
    blocks = pools.flatMap freePool := by
  have htiling := h.wellFormed.tiling
  rw [← h.pools]
  exact blocks_of_outline htiling.follows htiling.ends htiling.sized hfree

theorem Owned.heap_of_nil (h : Owned m freelist pools blocks []) :
    Heap m freelist pools (pools.flatMap freePool) := by
  have hblocks : blocks = pools.flatMap freePool := by
    refine h.heap.blocks_of_free fun b hb hkind => ?_
    obtain ⟨c, hc, -⟩ := h.covered b hb hkind
    cases hc
  exact hblocks ▸ h.heap

/-- When the client owns no buffer any more, the heap is as it was: every pool is one free block. -/
theorem session_no_leak (h₀ : Heap m₀ freelist pools blocks₀) (hfree : ∀ b ∈ blocks₀, b.kind ≠ .allocated)
    (hfuel : 2 ^ 29 < fuel) (h : Session freelist fuel pools m₀ m []) :
    Heap m freelist pools blocks₀ ∧ blocks₀ = pools.flatMap freePool := by
  obtain ⟨blocks, howned⟩ := h.owned h₀ hfree hfuel
  have hblocks := h₀.blocks_of_free hfree
  refine ⟨?_, hblocks⟩
  rw [hblocks]
  exact howned.heap_of_nil

theorem session_no_leak_one : ∃ m,
    Session 0x8000 (2 ^ 29 + 1) [⟨0x1000, 0x1098⟩] (oneFree fun _ => 0) m [] ∧
      Heap m 0x8000 [⟨0x1000, 0x1098⟩] [⟨0x1000, 152, .free⟩, ⟨0x1098, 8, .sentinel⟩] ∧
      [⟨0x1000, 152, .free⟩, ⟨0x1098, 8, .sentinel⟩] = [(⟨0x1000, 0x1098⟩ : Span)].flatMap freePool := by
  obtain ⟨-, -, m, -, hsession⟩ := exists_session
  exact ⟨m, hsession, session_no_leak (heap_oneFree _) (by simp) (by decide) hsession⟩

theorem exhausted_freePools {n : Nat} (hn : 0 < n) :
    Exhausted (pools.flatMap freePool) n ↔ ∀ pool ∈ pools, pool.hi < pool.lo + n := by
  have hpool : ∀ pool : Span, (∀ b ∈ freePool pool, b.kind = .free → b.size < n) ↔ pool.hi < pool.lo + n := by
    intro pool
    unfold freePool
    split
    · simp only [List.mem_singleton, forall_eq, reduceCtorEq, false_implies, true_iff]
      omega
    · simp only [List.mem_cons, List.not_mem_nil, or_false, forall_eq_or_imp, forall_eq, reduceCtorEq,
        false_implies, and_true, true_implies]
      omega
  simp only [Exhausted, List.mem_flatMap]
  constructor
  · intro h pool hmem
    exact (hpool pool).mp fun b hb => h b ⟨pool, hmem, hb⟩
  · rintro h b ⟨pool, hmem, hb⟩
    exact (hpool pool).mpr (h pool hmem) b hb

/-- Then a request is served if and only if one of the pools has room for its block: whatever the client
did before, the heap is not fragmented. -/
theorem session_malloc_after_free (h₀ : Heap m₀ freelist pools blocks₀)
    (hfree : ∀ b ∈ blocks₀, b.kind ≠ .allocated) (hfuel : 2 ^ 29 < fuel)
    (h : Session freelist fuel pools m₀ m []) (hs : s.toNat + 16 ≤ 2 ^ 31) :
    Returns (heapMalloc freelist fuel s) m fun r _ =>
      r ≠ 0 ↔ ∃ pool ∈ pools, pool.lo + blockBytes s.toNat ≤ pool.hi := by
  obtain ⟨blocks, howned⟩ := h.owned h₀ hfree hfuel
  have hsize := toNat_notZero s
  have hroom := @exhausted_freePools pools _ (Nat.lt_of_lt_of_le (by decide) (blockBytes_ge s.toNat))
  rw [returns_heapMalloc]
  refine (bget_serves howned.heap_of_nil (by omega) (by omega) hfuel).imp ?_
  rw [blockBytes_notZero, hroom]
  rintro r m' (⟨rfl, -, hnone⟩ | ⟨front, a, z, back, htaken, hsome⟩)
  · simpa using hnone
  · have hne := htaken.granted.ne_null
    simp only [not_forall, Nat.not_lt] at hsome
    obtain ⟨pool, hpool, hfits⟩ := hsome
    exact ⟨fun _ => ⟨pool, hpool, hfits⟩, fun _ => hne⟩

theorem session_malloc_after_free_one : ∃ m,
    Session 0x8000 (2 ^ 29 + 1) [⟨0x1000, 0x1098⟩] (oneFree fun _ => 0) m [] ∧
      Returns (heapMalloc 0x8000 (2 ^ 29 + 1) 144) m fun r _ =>
        r ≠ 0 ↔ ∃ pool ∈ [(⟨0x1000, 0x1098⟩ : Span)], pool.lo + blockBytes (144 : Word).toNat ≤ pool.hi := by
  obtain ⟨-, -, m, -, hsession⟩ := exists_session
  exact ⟨m, hsession, session_malloc_after_free (heap_oneFree _) (by simp) (by decide) hsession (by decide)⟩

end Sessions

end SeCloak
