import SeCloak.Heap.Layout
import SeCloak.Misc.Returns

/-!
# Releasing parts of a block (`bget_malloc.c:355-499`)

What the three functions assert holds in a well-formed heap, but for the header that `brel_before` makes
in the middle of a block: it sets the size there, and leaves `prevfree` as the payload had it.
-/

namespace SeCloak
open Misc Code

/-! ## Accesses -/

section Accesses

variable {m : Bytes} {p q a n : Nat} {v : Int} {w : Word} {Q : Unit → Bytes → Prop}

theorem returns_prevfree {Q : Int → Bytes → Prop} : Returns (prevfree p) m Q ↔ Q (prevfreeOf m p) m :=
  returns_get_bind_iff.trans returns_pure_iff

theorem returns_bsize {Q : Int → Bytes → Prop} : Returns (bsize p) m Q ↔ Q (bsizeOf m p) m :=
  returns_get_bind_iff.trans returns_pure_iff

theorem returns_flink {Q : Nat → Bytes → Prop} : Returns (flink p) m Q ↔ Q (flinkOf m p) m :=
  returns_get_bind_iff.trans returns_pure_iff

theorem returns_blink {Q : Nat → Bytes → Prop} : Returns (blink p) m Q ↔ Q (blinkOf m p) m :=
  returns_get_bind_iff.trans returns_pure_iff

theorem returns_setPrevfree :
    Returns (setPrevfree p v) m Q ↔ Q () (m.store p (BitVec.ofInt 32 v)) := returns_modify_iff

theorem returns_setBsize :
    Returns (setBsize p v) m Q ↔ Q () (m.store (p + 4) (BitVec.ofInt 32 v)) := returns_modify_iff

theorem returns_setFlink :
    Returns (setFlink p q) m Q ↔ Q () (m.store (p + 8) (BitVec.ofNat 32 q)) := returns_modify_iff

theorem returns_setBlink :
    Returns (setBlink p q) m Q ↔ Q () (m.store (p + 12) (BitVec.ofNat 32 q)) := returns_modify_iff

theorem returns_heapAssert {p : Prop} [Decidable p] : Returns (heapAssert p) m Q ↔ p ∧ Q () m :=
  returns_require_iff

/-- A size fits into `bufsize`. -/
theorem toInt_ofInt_of_fits (hlo : -2 ^ 31 ≤ v) (hhi : v < 2 ^ 31) : (BitVec.ofInt 32 v).toInt = v := by
  rw [BitVec.toInt_ofInt]
  exact Int.bmod_eq_of_le (by omega) (by omega)

theorem prevfreeOf_store (hlo : -2 ^ 31 ≤ v) (hhi : v < 2 ^ 31) :
    prevfreeOf (m.store p (BitVec.ofInt 32 v)) p = v := by
  rw [prevfreeOf, Bytes.load_store, toInt_ofInt_of_fits hlo hhi]

theorem bsizeOf_store (hlo : -2 ^ 31 ≤ v) (hhi : v < 2 ^ 31) :
    bsizeOf (m.store (p + 4) (BitVec.ofInt 32 v)) p = v := by
  rw [bsizeOf, Bytes.load_store, toInt_ofInt_of_fits hlo hhi]

theorem flinkOf_store (h : n < 2 ^ 32) : flinkOf (m.store (p + 8) (BitVec.ofNat 32 n)) p = n := by
  rw [flinkOf, Bytes.load_store, BitVec.toNat_ofNat, Nat.mod_eq_of_lt h]

theorem blinkOf_store (h : n < 2 ^ 32) : blinkOf (m.store (p + 12) (BitVec.ofNat 32 n)) p = n := by
  rw [blinkOf, Bytes.load_store, BitVec.toNat_ofNat, Nat.mod_eq_of_lt h]

theorem prevfreeOf_store_apart (h : a + 4 ≤ q ∨ q + 4 ≤ a) :
    prevfreeOf (m.store a w) q = prevfreeOf m q := by
  rw [prevfreeOf, Bytes.load_store_of_apart h, prevfreeOf]

theorem bsizeOf_store_apart (h : a ≤ q ∨ q + 8 ≤ a) : bsizeOf (m.store a w) q = bsizeOf m q := by
  rw [bsizeOf, Bytes.load_store_of_apart (by omega), bsizeOf]

theorem flinkOf_store_apart (h : a ≤ q + 4 ∨ q + 12 ≤ a) : flinkOf (m.store a w) q = flinkOf m q := by
  rw [flinkOf, Bytes.load_store_of_apart (by omega), flinkOf]

theorem blinkOf_store_apart (h : a ≤ q + 8 ∨ q + 16 ≤ a) : blinkOf (m.store a w) q = blinkOf m q := by
  rw [blinkOf, Bytes.load_store_of_apart (by omega), blinkOf]

theorem flinkOf_lt : flinkOf m p < 2 ^ 32 := (m.load (p + 8)).isLt

theorem blinkOf_lt : blinkOf m p < 2 ^ 32 := (m.load (p + 12)).isLt

end Accesses

/-! ## A new free block -/

section Create

variable {m : Bytes} {freelist bf bn : Nat} {size : Int} {Q : Unit → Bytes → Prop}

/-- The memory with the header of a new free block, and with its size in the next header. -/
def withFreeHeader (m : Bytes) (bf bn : Nat) (size : Int) : Bytes :=
  ((m.store (bf + 4) (BitVec.ofInt 32 size)).store bf (BitVec.ofInt 32 0)).store bn (BitVec.ofInt 32 size)

/-- The memory with a block put before the head of the free list. -/
def withNode (m : Bytes) (freelist bf : Nat) : Bytes :=
  let last := blinkOf (m.store (bf + 8) (BitVec.ofNat 32 freelist)) freelist
  let m := ((m.store (bf + 8) (BitVec.ofNat 32 freelist)).store (bf + 12) (BitVec.ofNat 32 last)).store
    (freelist + 12) (BitVec.ofNat 32 bf)
  m.store (blinkOf m bf + 8) (BitVec.ofNat 32 bf)

theorem returns_createFreeBlock : Returns (createFreeBlock freelist bf size bn) m Q ↔
    offset bf size = bn ∧ bsizeOf m bn < 0 ∧ prevfreeOf m bn = 0 ∧
      flinkOf (withFreeHeader m bf bn size) (blinkOf (withFreeHeader m bf bn size) freelist) = freelist ∧
      blinkOf (withFreeHeader m bf bn size) (flinkOf (withFreeHeader m bf bn size) freelist) = freelist ∧
      Q () (withNode (withFreeHeader m bf bn size) freelist bf) := by
  simp only [createFreeBlock, returns_bind_iff, returns_heapAssert, returns_bsize, returns_prevfree,
    returns_flink, returns_blink, returns_setBsize, returns_setPrevfree, returns_setFlink,
    returns_setBlink]
  rfl

/-- The links that are written, for a block that is apart from the head. -/
theorem withNode_eq (hapart : bf + 16 ≤ freelist ∨ freelist + 16 ≤ bf) :
    withNode m freelist bf =
      (((m.store (bf + 8) (BitVec.ofNat 32 freelist)).store (bf + 12)
        (BitVec.ofNat 32 (blinkOf m freelist))).store (freelist + 12) (BitVec.ofNat 32 bf)).store
        (blinkOf m freelist + 8) (BitVec.ofNat 32 bf) := by
  have hlast : blinkOf (m.store (bf + 8) (BitVec.ofNat 32 freelist)) freelist = blinkOf m freelist :=
    blinkOf_store_apart (by omega)
  have hback : blinkOf (((m.store (bf + 8) (BitVec.ofNat 32 freelist)).store (bf + 12)
      (BitVec.ofNat 32 (blinkOf m freelist))).store (freelist + 12) (BitVec.ofNat 32 bf)) bf =
      blinkOf m freelist := by
    rw [blinkOf_store_apart (by omega), blinkOf_store blinkOf_lt]
  rw [withNode, hlast, hback]

theorem ring_withNode {nodes : List Nat} (hring : Ring (flinkOf m) (blinkOf m) freelist nodes)
    (hnodes : ∀ x ∈ freelist :: nodes, ∀ y ∈ freelist :: nodes, x = y ∨ x + 16 ≤ y ∨ y + 16 ≤ x)
    (hbf : ∀ x ∈ freelist :: nodes, x + 16 ≤ bf ∨ bf + 16 ≤ x) (hlt : bf < 2 ^ 32)
    (hhead : freelist < 2 ^ 32) :
    Ring (flinkOf (withNode m freelist bf)) (blinkOf (withNode m freelist bf)) freelist
      (nodes ++ [bf]) := by
  obtain ⟨hlastMem, -⟩ := hring.prev_head
  have hheadMem : freelist ∈ freelist :: nodes := List.mem_cons_self
  have hheadBf := hbf freelist hheadMem
  have hlastBf := hbf _ hlastMem
  have hheadLast := hnodes _ hlastMem freelist hheadMem
  rw [withNode_eq (by omega)]
  refine hring.insert ?_ ?_ ?_ ?_ ?_ ?_ ?_
  · intro hmem
    have hself := hbf bf hmem
    omega
  · rw [flinkOf_store_apart (by omega), flinkOf_store_apart (by omega), flinkOf_store_apart (by omega),
      flinkOf_store hhead]
  · rw [blinkOf_store_apart (by omega), blinkOf_store_apart (by omega), blinkOf_store blinkOf_lt]
  · rw [flinkOf_store hlt]
  · rw [blinkOf_store_apart (by omega), blinkOf_store hlt]
  · intro x hx hne
    have hxBf := hbf x hx
    have hxHead := hnodes x hx freelist hheadMem
    have hxLast := hnodes x hx _ hlastMem
    rw [flinkOf_store_apart (by omega), flinkOf_store_apart (by omega), flinkOf_store_apart (by omega),
      flinkOf_store_apart (by omega)]
  · intro x hx
    have hxMem : x ∈ freelist :: nodes := List.mem_cons_of_mem _ hx
    have hxBf := hbf x hxMem
    have hxHead := hnodes x hxMem freelist hheadMem
    have hxLast := hnodes x hxMem _ hlastMem
    have hxne : x ≠ freelist := fun h => (List.nodup_cons.mp hring.nodup).1 (h ▸ hx)
    rw [blinkOf_store_apart (by omega), blinkOf_store_apart (by omega), blinkOf_store_apart (by omega),
      blinkOf_store_apart (by omega)]

/-- Headers that no link overlaps. -/
theorem header_withNode {q : Nat} (hapart : bf + 16 ≤ freelist ∨ freelist + 16 ≤ bf)
    (hbf : q ≤ bf ∨ bf + 16 ≤ q) (hhead : q ≤ freelist ∨ freelist + 16 ≤ q)
    (hlast : q ≤ blinkOf m freelist ∨ blinkOf m freelist + 16 ≤ q) :
    prevfreeOf (withNode m freelist bf) q = prevfreeOf m q ∧
      bsizeOf (withNode m freelist bf) q = bsizeOf m q := by
  rw [withNode_eq hapart]
  constructor
  · rw [prevfreeOf_store_apart (by omega), prevfreeOf_store_apart (by omega),
      prevfreeOf_store_apart (by omega), prevfreeOf_store_apart (by omega)]
  · rw [bsizeOf_store_apart (by omega), bsizeOf_store_apart (by omega), bsizeOf_store_apart (by omega),
      bsizeOf_store_apart (by omega)]

theorem withNode_apply {x : Nat} (hapart : bf + 16 ≤ freelist ∨ freelist + 16 ≤ bf)
    (hbf : x < bf ∨ bf + 16 ≤ x) (hhead : x < freelist ∨ freelist + 16 ≤ x)
    (hlast : x < blinkOf m freelist + 8 ∨ blinkOf m freelist + 16 ≤ x) :
    withNode m freelist bf x = m x := by
  rw [withNode_eq hapart]
  rw [Bytes.store_apply_of_outside (by omega), Bytes.store_apply_of_outside (by omega),
    Bytes.store_apply_of_outside (by omega), Bytes.store_apply_of_outside (by omega)]

end Create

section CreateSpec

variable {m : Bytes} {freelist bf size : Nat} {front back : List Block} {c : Block}

theorem freeAddrs_append (xs ys : List Block) : freeAddrs (xs ++ ys) = freeAddrs xs ++ freeAddrs ys := by
  simp [freeAddrs]

theorem freeAddrs_cons_free {b : Block} (h : b.kind = .free) (bs : List Block) :
    freeAddrs (b :: bs) = b.addr :: freeAddrs bs := by
  simp [freeAddrs, h]

theorem freeAddrs_cons_of_ne {b : Block} (h : b.kind ≠ .free) (bs : List Block) :
    freeAddrs (b :: bs) = freeAddrs bs := by
  simp [freeAddrs, h]

theorem freeBefore_of_last (h : ∀ b ∈ front.getLast?, b.kind ≠ .free) : freeBefore 0 front = 0 := by
  induction front using List.reverseRecOn with
  | nil => rfl
  | append_singleton xs b _ =>
    have hb := h b (by simp)
    rw [freeBefore_snoc, Block.freeSize, if_neg hb]

/-- An allocated block in the middle becomes free. -/
theorem Tiling.free (h : Tiling freelist (front ++ ⟨bf, size, .allocated⟩ :: c :: back))
    (hbefore : ∀ b ∈ front.getLast?, b.kind ≠ .free) (hc : c.kind ≠ .free) :
    Tiling freelist (front ++ ⟨bf, size, .free⟩ :: c :: back) := by
  have hmem : (⟨bf, size, .allocated⟩ : Block) ∈ front ++ ⟨bf, size, .allocated⟩ :: c :: back :=
    List.mem_append_right _ List.mem_cons_self
  have hfollows := List.isChain_append_cons_cons.mp h.follows
  refine @Tiling.replace freelist front (c :: back) [⟨bf, size, .allocated⟩] [⟨bf, size, .free⟩] h
    (by simp) (by simp) (fun n hn => ?_) (List.isChain_singleton _) ?_ ?_ ?_ ?_
  · simpa [Short, poolLength] using hn
  · intro b hb d hd
    obtain rfl := Option.some.inj hd
    have hseam := (List.isChain_append.mp hfollows.1).2.2 b hb _ rfl
    exact hseam.congr_right rfl fun hfree => absurd hfree (hbefore b hb)
  · intro b hb d hd
    obtain rfl := Option.some.inj hb
    obtain rfl := Option.some.inj hd
    exact hfollows.2.1.congr_left (by simp) (by simp) rfl fun _ => hc
  · intro b hb
    obtain rfl := List.mem_singleton.mp hb
    have hsized := h.sized _ hmem
    exact hsized
  · intro b hb
    obtain rfl := List.mem_singleton.mp hb
    have hapart := h.apart _ hmem
    exact hapart

/-- What is known of the addresses around a block in the middle. -/
structure Around (freelist bf size : Nat) (front back : List Block) (c : Block) : Prop where
  room : 16 ≤ size
  fits : size < 2 ^ 31
  next : c.addr = bf + size
  next_pos : c.addr + 8 ≤ c.stop
  next_le : c.stop ≤ 2 ^ 32
  head : freelist + 16 ≤ bf ∨ bf + size ≤ freelist
  before : ∀ b ∈ front, b.addr + 8 ≤ b.stop ∧ b.stop ≤ bf
  behind : ∀ b ∈ back, b.addr + 8 ≤ b.stop ∧ c.stop ≤ b.addr
  node : ∀ x ∈ freelist :: freeAddrs (front ++ c :: back), (x + 16 ≤ bf ∨ bf + size ≤ x) ∧
    ∀ b ∈ front ++ c :: back, (b.kind = .free ∧ x = b.addr) ∨ x + 16 ≤ b.addr ∨ b.stop ≤ x
  nodes : ∀ x ∈ freelist :: freeAddrs (front ++ c :: back),
    ∀ y ∈ freelist :: freeAddrs (front ++ c :: back), x = y ∨ x + 16 ≤ y ∨ y + 16 ≤ x

theorem Tiling.around (h : Tiling freelist (front ++ ⟨bf, size, .allocated⟩ :: c :: back)) :
    Around freelist bf size front back c := by
  have hM : (⟨bf, size, .allocated⟩ : Block) ∈ front ++ ⟨bf, size, .allocated⟩ :: c :: back :=
    List.mem_append_right _ List.mem_cons_self
  have hc : c ∈ front ++ ⟨bf, size, .allocated⟩ :: c :: back :=
    List.mem_append_right _ (List.mem_cons_of_mem _ List.mem_cons_self)
  have hothers : ∀ b ∈ front ++ c :: back, b ∈ front ++ ⟨bf, size, .allocated⟩ :: c :: back := by
    intro b hb
    rcases List.mem_append.mp hb with hb | hb
    · exact List.mem_append_left _ hb
    · exact List.mem_append_right _ (List.mem_cons_of_mem _ hb)
  have hfree : freeAddrs (front ++ ⟨bf, size, .allocated⟩ :: c :: back) =
      freeAddrs (front ++ c :: back) := by
    rw [freeAddrs_append, freeAddrs_append, freeAddrs_cons_of_ne (by simp)]
  have hsized := (h.sized _ hM).room (by simp)
  have hfollows : Block.Follows ⟨bf, size, .allocated⟩ c :=
    (List.isChain_append_cons_cons.mp h.follows).2.1
  rw [Block.Follows, if_neg (by simp)] at hfollows
  have hnext : c.addr = bf + size := hfollows.1
  have hroom : bf + 16 ≤ bf + size := hsized.1
  have hsplit := h.split
  have hsplit' := (List.append_assoc front [⟨bf, size, .allocated⟩] (c :: back) ▸ h :
    Tiling freelist (front ++ [⟨bf, size, .allocated⟩] ++ c :: back)).split
  refine ⟨by omega, hsized.2, hnext, (h.sized c hc).pos, (h.sized c hc).1, h.apart _ hM, ?_, ?_, ?_, ?_⟩
  · intro b hb
    exact ⟨(h.sized b (List.mem_append_left _ hb)).pos, hsplit.1 b hb⟩
  · intro b hb
    have hmem := List.mem_append_right front
      (List.mem_cons_of_mem (⟨bf, size, .allocated⟩ : Block) (List.mem_cons_of_mem c hb))
    exact ⟨(h.sized b hmem).pos, hsplit'.2 b hb⟩
  · intro x hx
    rw [← hfree] at hx
    refine ⟨?_, fun b hb => h.node_apart hx (hothers b hb)⟩
    rcases h.node_apart hx hM with ⟨hkind, -⟩ | hle
    · cases hkind
    · exact hle
  · intro x hx y hy
    rw [← hfree] at hx hy
    exact h.nodes_apart hx hy

theorem Around.headers_withFreeHeader (h : Around freelist bf size front back c)
    (hbefore : freeBefore 0 front = 0) (hfront : Headers m 0 front) (hback : Headers m 0 (c :: back)) :
    Headers (withFreeHeader m bf c.addr size) 0 (front ++ ⟨bf, size, .free⟩ :: c :: back) := by
  obtain ⟨hroom, hfits, hnext, hnextPos, -, -, hbeforeAddr, hbehindAddr, -, -⟩ := h
  have hsize : (⟨bf, size, .free⟩ : Block).freeSize = size := if_pos rfl
  unfold withFreeHeader
  refine headers_append.mpr ⟨hfront.congr ?_ ?_, ?_, ?_, ?_, ?_, ?_⟩
  · intro b hb
    have hle := hbeforeAddr b hb
    rw [prevfreeOf_store_apart (by omega), prevfreeOf_store_apart (by omega),
      prevfreeOf_store_apart (by omega)]
  · intro b hb
    have hle := hbeforeAddr b hb
    rw [bsizeOf_store_apart (by omega), bsizeOf_store_apart (by omega), bsizeOf_store_apart (by omega)]
  · rw [hbefore, prevfreeOf_store_apart (by dsimp only; omega), prevfreeOf_store (by omega) (by omega)]
  · rw [bsizeOf_store_apart (by dsimp only; omega), bsizeOf_store_apart (by dsimp only; omega),
      bsizeOf_store (by omega) (by omega)]
    rfl
  · rw [hsize, prevfreeOf_store (by omega) (by omega)]
  · rw [bsizeOf_store_apart (by omega), bsizeOf_store_apart (by omega), bsizeOf_store_apart (by omega)]
    exact hback.2.1
  · refine hback.2.2.congr ?_ ?_
    · intro b hb
      have hle := hbehindAddr b hb
      rw [prevfreeOf_store_apart (by omega), prevfreeOf_store_apart (by omega),
        prevfreeOf_store_apart (by omega)]
    · intro b hb
      have hle := hbehindAddr b hb
      rw [bsizeOf_store_apart (by omega), bsizeOf_store_apart (by omega), bsizeOf_store_apart (by omega)]

theorem Block.bsize_neg {b : Block} (hkind : b.kind ≠ .free) (hpos : b.addr + 8 ≤ b.stop) :
    b.bsize < 0 := by
  rw [Block.stop] at hpos
  unfold Block.bsize
  cases h : b.kind with
  | free => exact absurd h hkind
  | allocated =>
    change -(b.size : Int) < 0
    omega
  | sentinel => exact Int.negSucc_lt_zero 2147483647

/-- An allocated block whose own header does not matter is made free. -/
theorem createFreeBlock_returns
    (htiling : Tiling freelist (front ++ ⟨bf, size, .allocated⟩ :: c :: back))
    (hbefore : ∀ b ∈ front.getLast?, b.kind ≠ .free) (hc : c.kind ≠ .free)
    (hfront : Headers m 0 front) (hback : Headers m 0 (c :: back))
    (hlist : ∃ nodes, nodes.Perm (freeAddrs (front ++ c :: back)) ∧
      Ring (flinkOf m) (blinkOf m) freelist nodes) :
    Returns (createFreeBlock freelist bf size c.addr) m fun _ m' =>
      WellFormed m' freelist (front ++ ⟨bf, size, .free⟩ :: c :: back) ∧
        ∀ b ∈ front ++ c :: back, b.kind = .allocated → b.SamePayload m m' := by
  obtain ⟨nodes, hperm, hring⟩ := hlist
  have hA := htiling.around
  have ⟨hroom, hfits, hnext, hnextPos, hnextLe, hhead, hbeforeAddr, hbehindAddr, hnode,
    hnodes⟩ := hA
  have hmem : ∀ x, x ∈ freelist :: nodes → x ∈ freelist :: freeAddrs (front ++ c :: back) := fun x hx =>
    (hperm.cons freelist).subset hx
  -- the links of the free list are in none of the headers that are written first
  have hlinks : ∀ x ∈ freelist :: nodes,
      flinkOf (withFreeHeader m bf c.addr size) x = flinkOf m x ∧
        blinkOf (withFreeHeader m bf c.addr size) x = blinkOf m x := by
    intro x hx
    obtain ⟨hxM, hxOthers⟩ := hnode x (hmem x hx)
    have hxc := hxOthers c (List.mem_append_right _ List.mem_cons_self)
    have hxc' : x + 16 ≤ c.addr ∨ c.stop ≤ x := hxc.resolve_left fun h => hc h.1
    unfold withFreeHeader
    constructor
    · rw [flinkOf_store_apart (by omega), flinkOf_store_apart (by omega), flinkOf_store_apart (by omega)]
    · rw [blinkOf_store_apart (by omega), blinkOf_store_apart (by omega), blinkOf_store_apart (by omega)]
  have hring₁ := hring.congr (fun x hx => (hlinks x hx).1) fun x hx => (hlinks x hx).2
  have hheaders := hA.headers_withFreeHeader (freeBefore_of_last hbefore) hfront hback
  have hapart : bf + 16 ≤ freelist ∨ freelist + 16 ≤ bf := by omega
  obtain ⟨hlastM, hlast⟩ := hnode _ (hmem _ hring₁.prev_head.1)
  have hheadOthers := (hnode freelist List.mem_cons_self).2
  have hheader : ∀ b ∈ front ++ ⟨bf, size, .free⟩ :: c :: back,
      prevfreeOf (withNode (withFreeHeader m bf c.addr size) freelist bf) b.addr =
          prevfreeOf (withFreeHeader m bf c.addr size) b.addr ∧
        bsizeOf (withNode (withFreeHeader m bf c.addr size) freelist bf) b.addr =
          bsizeOf (withFreeHeader m bf c.addr size) b.addr := by
    intro b hb
    have hcases : b = ⟨bf, size, .free⟩ ∨ (b ∈ front ++ c :: back ∧ (b.stop ≤ bf ∨ bf + 16 ≤ b.addr)) := by
      rcases List.mem_append.mp hb with hb | hb
      · exact Or.inr ⟨List.mem_append_left _ hb, Or.inl (hbeforeAddr b hb).2⟩
      · rcases List.mem_cons.mp hb with rfl | hb
        · exact Or.inl rfl
        · refine Or.inr ⟨List.mem_append_right _ hb, Or.inr ?_⟩
          rcases List.mem_cons.mp hb with rfl | hb
          · omega
          · have hle := hbehindAddr b hb
            omega
    rcases hcases with rfl | ⟨hb, hbM⟩
    · exact header_withNode hapart (by dsimp only; omega) (by dsimp only; omega) (by dsimp only; omega)
    · have hbHead := hheadOthers b hb
      have hbLast := hlast b hb
      have hle : b.addr ≤ b.stop := Nat.le_add_right _ _
      exact header_withNode hapart (by omega) (by omega) (by omega)
  refine returns_createFreeBlock.mpr ⟨?_, ?_, hback.1, hring₁.prev_head.2, hring₁.next_head, ?_, ?_⟩
  · rw [offset, hnext]
    omega
  · rw [hback.2.1]
    exact Block.bsize_neg hc hnextPos
  · refine ⟨htiling.free hbefore hc, hheaders.congr (fun b hb => (hheader b hb).1)
      (fun b hb => (hheader b hb).2), nodes ++ [bf], ?_, ?_⟩
    · rw [freeAddrs_append, freeAddrs_cons_free rfl]
      rw [freeAddrs_append] at hperm
      exact List.perm_append_comm.trans ((hperm.cons bf).trans List.perm_middle.symm)
    · refine ring_withNode hring₁ ?_ ?_ (by omega) (by have := htiling.head_lt; omega)
      · intro x hx y hy
        exact hnodes x (hmem x hx) y (hmem y hy)
      · intro x hx
        have hxM := (hnode x (hmem x hx)).1
        omega
  · intro b hb hkind x hlo hhi
    have hbHead := hheadOthers b hb
    have hbLast := hlast b hb
    rw [hkind] at hbHead hbLast
    simp only [reduceCtorEq, false_and, false_or] at hbHead hbLast
    have hsizeof : sizeofBhead = 8 := rfl
    have hbM : b.stop ≤ bf ∨ c.addr + 8 ≤ x := by
      rcases List.mem_append.mp hb with hb | hb
      · exact Or.inl (hbeforeAddr b hb).2
      · rcases List.mem_cons.mp hb with rfl | hb
        · exact Or.inr hlo
        · have hle := hbehindAddr b hb
          omega
    rw [withNode_apply hapart (by omega) (by omega) (by omega)]
    unfold withFreeHeader
    rw [Bytes.store_apply_of_outside (by omega), Bytes.store_apply_of_outside (by omega),
      Bytes.store_apply_of_outside (by omega)]

end CreateSpec

/-! ## The front of a block -/

section Before

variable {m : Bytes} {freelist a d z : Nat} {front back : List Block} {f : Block}
  {Q : Unit → Bytes → Prop}

/-- The memory with the front given to the free block before it. -/
def withGrown (m : Bytes) (fp b : Nat) (size rest : Int) : Bytes :=
  ((m.store (fp + 4) (BitVec.ofInt 32 size)).store b (BitVec.ofInt 32 size)).store (b + 4)
    (BitVec.ofInt 32 (-rest))

theorem withGrown_apply {fp b x : Nat} {size rest : Int} (hfp : x < fp + 4 ∨ fp + 8 ≤ x)
    (hb : x < b ∨ b + 8 ≤ x) : withGrown m fp b size rest x = m x := by
  rw [withGrown, Bytes.store_apply_of_outside (by omega), Bytes.store_apply_of_outside (by omega),
    Bytes.store_apply_of_outside (by omega)]

theorem returns_brelBefore :
    Returns (brelBefore freelist (a + 8) (a + d + 8)) m Q ↔ 16 ≤ d ∧
      if prevfreeOf m a ≠ 0 then
        bsizeOf m (offset a (-prevfreeOf m a)) = prevfreeOf m a ∧
          Q () (withGrown m (offset a (-prevfreeOf m a)) (a + d)
            (bsizeOf m (offset a (-prevfreeOf m a)) + d) (-bsizeOf m a - d))
      else Returns (createFreeBlock freelist a d (a + d))
        (m.store (a + d + 4) (BitVec.ofInt 32 (-(-bsizeOf m a - d)))) Q := by
  have hsize : ((a + d + 8 - (a + 8) : Nat) : Int) = d := by omega
  have ha : a + 8 - sizeofBhead = a := Nat.add_sub_cancel a 8
  have hb : a + d + 8 - sizeofBhead = a + d := Nat.add_sub_cancel (a + d) 8
  have hread : ∀ p v, BitVec.ofInt 32 (bsizeOf (m.store (p + 4) (BitVec.ofInt 32 v)) p) =
      BitVec.ofInt 32 v := by
    intro p v
    rw [bsizeOf, Bytes.load_store, BitVec.ofInt_toInt]
  simp only [brelBefore, returns_bind_iff, returns_heapAssert, returns_bsize, returns_prevfree]
  rw [hsize, ha, hb]
  have hless : a + 8 < a + d + 8 ∧ (sizeQ : Int) + sizeofBhead ≤ d ↔ 16 ≤ d := by
    simp only [sizeQ, sizeofBhead]
    omega
  rw [← and_assoc, hless]
  refine and_congr_right fun _ => ?_
  split
  · simp only [returns_bind_iff, returns_heapAssert, returns_bsize, returns_prevfree, returns_setBsize,
      returns_setPrevfree, hread]
    rfl
  · simp only [returns_bind_iff, returns_setBsize]

/-- A boundary between two blocks moves into the second one. -/
theorem Tiling.moveUp (h : Tiling freelist (front ++ f :: ⟨a, z, .allocated⟩ :: back))
    (hf : f.kind = .free) (hz : d + 16 ≤ z) :
    Tiling freelist (front ++ { f with size := f.size + d } :: ⟨a + d, z - d, .allocated⟩ :: back) := by
  have hfMem : f ∈ front ++ f :: ⟨a, z, .allocated⟩ :: back :=
    List.mem_append_right _ List.mem_cons_self
  have hfKind : f.kind ≠ .sentinel := by
    rw [hf]
    decide
  have hfx := (List.isChain_append_cons_cons.mp h.follows).2.1
  rw [Block.Follows, if_neg hfKind] at hfx
  have haddr : a = f.addr + f.size := hfx.1
  have hfRoom := ((Block.sized_iff hfKind).mp (h.sized f hfMem)).2.1
  refine h.moveBoundary hfKind (by simp) rfl rfl rfl ?_ ?_ ?_ ?_
  · change a + d = f.addr + (f.size + d)
    omega
  · change a + d + (z - d) = a + z
    omega
  · change 16 ≤ f.size + d
    omega
  · change 16 ≤ z - d
    omega

/-- The front of a block behind a free one is given to that one. -/
theorem brelBefore_grows (h : WellFormed m freelist (front ++ f :: ⟨a, z, .allocated⟩ :: back))
    (hf : f.kind = .free) (hd : 16 ≤ d) (hz : d + 16 ≤ z) :
    Returns (brelBefore freelist (a + 8) (a + d + 8)) m fun _ m' =>
      WellFormed m' freelist
        (front ++ { f with size := f.size + d } :: ⟨a + d, z - d, .allocated⟩ :: back) ∧
      ∀ b ∈ front ++ back, b.SamePayload m m' := by
  have htiling := h.tiling.moveUp hf hz
  have hfMem : f ∈ front ++ f :: ⟨a, z, .allocated⟩ :: back :=
    List.mem_append_right _ List.mem_cons_self
  have hxMem : (⟨a, z, .allocated⟩ : Block) ∈ front ++ f :: ⟨a, z, .allocated⟩ :: back :=
    List.mem_append_right _ (List.mem_cons_of_mem _ List.mem_cons_self)
  obtain ⟨hfront, hprevF, hsizeF, hprevX, hsizeX, hback⟩ := headers_append.mp h.headers
  have hfSize : f.bsize = f.size := by
    rw [Block.bsize, hf]
  have hfFree : f.freeSize = f.size := if_pos hf
  rw [hfSize] at hsizeF
  rw [hfFree] at hprevX
  have hsizeX : bsizeOf m a = -(z : Int) := hsizeX
  have hsplitF := h.tiling.split
  have hsplitX := (List.append_assoc front [f] (⟨a, z, .allocated⟩ :: back) ▸ h.tiling :
    Tiling freelist (front ++ [f] ++ ⟨a, z, .allocated⟩ :: back)).split
  have hpos : ∀ b ∈ front ++ f :: ⟨a, z, .allocated⟩ :: back, b.addr + 8 ≤ b.stop := fun b hb =>
    (h.tiling.sized b hb).pos
  have hfollows := (List.isChain_append_cons_cons.mp h.tiling.follows).2.1
  rw [Block.Follows, if_neg (by rw [hf]; decide)] at hfollows
  have ha : a = f.addr + f.size := hfollows.1
  have hfRoom := (h.tiling.sized f hfMem).room (by rw [hf]; decide)
  have hfRoom' : f.addr + 16 ≤ f.addr + f.size := hfRoom.1
  have hgrown := (htiling.sized _ (List.mem_append_right _ List.mem_cons_self)).room (by
    change f.kind ≠ _
    rw [hf]
    simp)
  have hgrown' : f.size + d < 2 ^ 31 := hgrown.2
  have hzLt := ((h.tiling.sized _ hxMem).room (by simp)).2
  have hzLt' : z < 2 ^ 31 := hzLt
  have hoffset : offset a (-(f.size : Int)) = f.addr := by
    rw [offset]
    omega
  have hbefore : ∀ b ∈ front, b.addr + 8 ≤ b.stop ∧ b.stop ≤ f.addr := fun b hb =>
    ⟨hpos b (List.mem_append_left _ hb), hsplitF.1 b hb⟩
  have hbehind : ∀ b ∈ back, b.addr + 8 ≤ b.stop ∧ a + z ≤ b.addr := fun b hb =>
    ⟨hpos b (List.mem_append_right _ (List.mem_cons_of_mem _ (List.mem_cons_of_mem _ hb))),
      hsplitX.2 b hb⟩
  refine returns_brelBefore.mpr ⟨hd, ?_⟩
  rw [hprevX, if_pos (by omega), hoffset, hsizeF, hsizeX]
  have hsame : ∀ x, (x < f.addr + 4 ∨ f.addr + 8 ≤ x) ∧ (x < a + d ∨ a + d + 8 ≤ x) →
      withGrown m f.addr (a + d) (f.size + d) (-(-(z : Int)) - d) x = m x :=
    fun x hx => withGrown_apply hx.1 hx.2
  have hlinks : ∀ x ∈ freelist :: freeAddrs (front ++ f :: ⟨a, z, .allocated⟩ :: back),
      flinkOf (withGrown m f.addr (a + d) (f.size + d) (-(-(z : Int)) - d)) x = flinkOf m x ∧
        blinkOf (withGrown m f.addr (a + d) (f.size + d) (-(-(z : Int)) - d)) x = blinkOf m x := by
    intro x hx
    have hxF := h.tiling.node_apart hx hfMem
    have hxX := (h.tiling.node_apart hx hxMem).resolve_left (by simp)
    simp only [Block.stop] at hxF hxX
    exact links_frame (fun y hlo hhi => by omega) hsame
  refine ⟨rfl, ⟨htiling, headers_append.mpr ⟨?_, ?_, ?_, ?_, ?_, ?_⟩, ?_⟩, ?_⟩
  · refine hfront.frame (fun b hb x hlo hhi => ?_) hsame
    have hle := hbefore b hb
    omega
  · rw [withGrown, prevfreeOf_store_apart (by dsimp only; omega),
      prevfreeOf_store_apart (by dsimp only; omega), prevfreeOf_store_apart (by dsimp only; omega),
      hprevF]
  · rw [withGrown, bsizeOf_store_apart (by dsimp only; omega), bsizeOf_store_apart (by dsimp only; omega),
      bsizeOf_store (by omega) (by omega), Block.bsize, hf]
    push_cast
    rfl
  · rw [withGrown, prevfreeOf_store_apart (by dsimp only; omega), prevfreeOf_store (by omega) (by omega),
      Block.freeSize, if_pos hf]
    push_cast
    rfl
  · rw [withGrown, bsizeOf_store (by omega) (by omega)]
    change _ = -((z - d : Nat) : Int)
    omega
  · refine hback.frame (fun b hb x hlo hhi => ?_) hsame
    have hle := hbehind b hb
    omega
  · obtain ⟨nodes, hperm, hring⟩ := h.list
    have hmem := (hperm.cons freelist).subset
    refine ⟨nodes, ?_, hring.congr (fun x hx => (hlinks x (hmem hx)).1) fun x hx =>
      (hlinks x (hmem hx)).2⟩
    rw [freeAddrs_append, freeAddrs_cons_free hf, freeAddrs_cons_of_ne (by simp)] at hperm
    rw [freeAddrs_append, freeAddrs_cons_free (by exact hf), freeAddrs_cons_of_ne (by simp)]
    exact hperm
  · intro b hb x hlo hhi
    have hsizeof : sizeofBhead = 8 := rfl
    refine hsame x ?_
    rcases List.mem_append.mp hb with hb | hb
    · have hle := hbefore b hb
      omega
    · have hle := hbehind b hb
      omega

/-- An allocated block is cut in two. -/
theorem Tiling.cut (h : Tiling freelist (front ++ ⟨a, z, .allocated⟩ :: back)) (hd : 16 ≤ d)
    (hz : d + 16 ≤ z) :
    Tiling freelist (front ++ ⟨a, d, .allocated⟩ :: ⟨a + d, z - d, .allocated⟩ :: back) := by
  have hxMem : (⟨a, z, .allocated⟩ : Block) ∈ front ++ ⟨a, z, .allocated⟩ :: back :=
    List.mem_append_right _ List.mem_cons_self
  obtain ⟨c, rest, rfl, hlast⟩ := h.exists_next (by simp)
  have hfirst := (List.isChain_append_cons_cons.mp h.follows).1
  have hxSized := h.sized _ hxMem
  have hxRoom := hxSized.room (by simp)
  have hxApart := h.apart _ hxMem
  have hxStop := hxSized.1
  simp only [Block.stop] at hxRoom hxApart hxStop
  refine @Tiling.replace freelist front (c :: rest) [⟨a, z, .allocated⟩]
    [⟨a, d, .allocated⟩, ⟨a + d, z - d, .allocated⟩] h (by simp) (by simp) ?_ ?_ ?_ ?_ ?_ ?_
  · intro n hn
    simp only [Short, poolLength, reduceCtorEq, if_false, false_or, and_true] at hn ⊢
    omega
  · exact List.isChain_cons_cons.mpr ⟨Block.follows_of_stop (by simp) rfl (by simp),
      List.isChain_singleton _⟩
  · intro b hb e he
    obtain rfl := Option.some.inj he
    have hseam := (List.isChain_append.mp hfirst).2.2 b hb ⟨a, z, .allocated⟩ rfl
    exact hseam.congr_right rfl (by simp)
  · intro b hb e he
    obtain rfl := Option.some.inj hb
    obtain rfl := Option.some.inj he
    refine hlast.congr_left (by simp) (by simp) ?_ (by simp)
    change a + d + (z - d) = a + z
    omega
  · intro b hb
    rcases List.mem_cons.mp hb with rfl | hb
    · rw [Block.Sized, Block.stop, if_neg (by simp)]
      dsimp only
      omega
    · obtain rfl := List.mem_singleton.mp hb
      rw [Block.Sized, Block.stop, if_neg (by simp)]
      dsimp only
      omega
  · intro b hb
    rcases List.mem_cons.mp hb with rfl | hb
    · rw [Block.stop]
      dsimp only
      omega
    · obtain rfl := List.mem_singleton.mp hb
      rw [Block.stop]
      dsimp only
      omega

/-- The front of another block becomes a block of its own, if `prevfree` of the header behind it
happens to be zero. -/
theorem brelBefore_splits (h : WellFormed m freelist (front ++ ⟨a, z, .allocated⟩ :: back))
    (hbefore : ∀ b ∈ front.getLast?, b.kind ≠ .free) (hd : 16 ≤ d) (hz : d + 16 ≤ z)
    (hword : prevfreeOf m (a + d) = 0) :
    Returns (brelBefore freelist (a + 8) (a + d + 8)) m fun _ m' =>
      WellFormed m' freelist (front ++ ⟨a, d, .free⟩ :: ⟨a + d, z - d, .allocated⟩ :: back) ∧
      ∀ b ∈ front ++ back, b.kind = .allocated → b.SamePayload m m' := by
  have htiling := h.tiling.cut hd hz
  obtain ⟨hfront, hprevX, hsizeX, hback⟩ := headers_append.mp h.headers
  rw [freeBefore_of_last hbefore] at hprevX
  have hsizeX : bsizeOf m a = -(z : Int) := hsizeX
  have hxMem : (⟨a, z, .allocated⟩ : Block) ∈ front ++ ⟨a, z, .allocated⟩ :: back :=
    List.mem_append_right _ List.mem_cons_self
  have hzLt : z < 2 ^ 31 := ((h.tiling.sized _ hxMem).room (by simp)).2
  have hsplit := h.tiling.split
  have hbeside : ∀ b ∈ front ++ back, b.addr + 8 ≤ b.stop ∧ (b.stop ≤ a ∨ a + z ≤ b.addr) := by
    intro b hb
    rcases List.mem_append.mp hb with hb | hb
    · exact ⟨(h.tiling.sized b (List.mem_append_left _ hb)).pos, Or.inl (hsplit.1 b hb)⟩
    · exact ⟨(h.tiling.sized b (List.mem_append_right _ (List.mem_cons_of_mem _ hb))).pos,
        Or.inr (hsplit.2 b hb)⟩
  have hsame : ∀ x, x < a + d + 4 ∨ a + d + 8 ≤ x →
      m.store (a + d + 4) (BitVec.ofInt 32 (-(z - d : Int))) x = m x := fun x hx =>
    Bytes.store_apply_of_outside hx
  refine returns_brelBefore.mpr ⟨hd, ?_⟩
  rw [if_neg (by rw [hprevX]; simp), hsizeX, Int.neg_neg]
  refine (createFreeBlock_returns htiling hbefore (by simp) ?_ ⟨?_, ?_, ?_⟩ ?_).imp ?_
  · refine hfront.frame (fun b hb x hlo hhi => ?_) hsame
    have hle := hbeside b (List.mem_append_left _ hb)
    have hle' := hsplit.1 b hb
    dsimp only at hle'
    omega
  · rw [prevfreeOf_store_apart (by dsimp only; omega), hword]
  · rw [bsizeOf_store (by omega) (by omega)]
    change _ = -((z - d : Nat) : Int)
    omega
  · refine hback.frame (fun b hb x hlo hhi => ?_) hsame
    have hle := hsplit.2 b hb
    simp only [Block.stop] at hle
    omega
  · obtain ⟨nodes, hperm, hring⟩ := h.list
    have hmem := (hperm.cons freelist).subset
    have hlinks : ∀ x ∈ freelist :: nodes,
        flinkOf (m.store (a + d + 4) (BitVec.ofInt 32 (-(z - d : Int)))) x = flinkOf m x ∧
          blinkOf (m.store (a + d + 4) (BitVec.ofInt 32 (-(z - d : Int)))) x = blinkOf m x := by
      intro x hx
      have hxX := (h.tiling.node_apart (hmem hx) hxMem).resolve_left (by simp)
      simp only [Block.stop] at hxX
      exact links_frame (fun y hlo hhi => by omega) hsame
    refine ⟨nodes, ?_, hring.congr (fun x hx => (hlinks x hx).1) fun x hx => (hlinks x hx).2⟩
    rw [freeAddrs_append, freeAddrs_cons_of_ne (by simp)] at hperm ⊢
    exact hperm
  · rintro - m' ⟨hwell, hpayload⟩
    refine ⟨hwell, fun b hb hkind x hlo hhi => ?_⟩
    have hothers : b ∈ front ++ ⟨a + d, z - d, .allocated⟩ :: back := by
      rcases List.mem_append.mp hb with hb | hb
      · exact List.mem_append_left _ hb
      · exact List.mem_append_right _ (List.mem_cons_of_mem _ hb)
    have hle := hbeside b hb
    rw [hpayload b hothers hkind x hlo hhi, hsame x (by omega)]

end Before

end SeCloak
