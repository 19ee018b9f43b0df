import SeCloak.Heap.Free
import SeCloak.Misc.Span

/-!
# Serving requests (`bget.c:755-820`, `bget_malloc.c:272-353`)

What a heap promises from one call to the next: it is well-formed, its blocks are aligned and its pools
are where they were. Every function of `bget.c` keeps this, and changes no allocated block but the one
it was asked about.
-/

namespace SeCloak
open Misc Code

/-! ## The pools -/

/-- The pools, each with the address of the header at its end; `start` is where the first one begins,
if some of its blocks have been passed. -/
def outline : Option Nat → List Block → List Span
  | _, [] => []
  | start, b :: bs =>
    if b.kind = .sentinel then ⟨start.getD b.addr, b.addr⟩ :: outline none bs
    else outline (some (start.getD b.addr)) bs

/-- The blocks of a pool that is free. -/
def freePool (pool : Span) : List Block :=
  if pool.lo = pool.hi then [⟨pool.hi, sizeofBhead, .sentinel⟩]
  else [⟨pool.lo, pool.hi - pool.lo, .free⟩, ⟨pool.hi, sizeofBhead, .sentinel⟩]

section Outline

variable {freelist a e : Nat} {front mid mid' back blocks : List Block} {start : Option Nat} {b : Block}

theorem outline_covers (h : Fills mid a e) (hne : mid ≠ []) :
    outline start (mid ++ back) = outline (some (start.getD a)) back := by
  induction mid generalizing start a with
  | nil => exact absurd rfl hne
  | cons b mid ih =>
    obtain ⟨hkind, rfl, hrest⟩ := h
    rw [List.cons_append, outline, if_neg hkind]
    cases mid with
    | nil => rfl
    | cons c mid => exact ih hrest (by simp)

theorem outline_append_congr (h : ∀ start, outline start mid = outline start mid') :
    outline start (front ++ mid) = outline start (front ++ mid') := by
  induction front generalizing start with
  | nil => exact h start
  | cons b front ih => simp only [List.cons_append, outline, ih]

/-- Blocks that cover the same addresses are of the same pools. -/
theorem outline_exchange (hmid : Fills mid a e) (hmid' : Fills mid' a e) (hne : mid ≠ [])
    (hne' : mid' ≠ []) :
    outline start (front ++ (mid ++ back)) = outline start (front ++ (mid' ++ back)) :=
  outline_append_congr fun start => by rw [outline_covers hmid hne, outline_covers hmid' hne']

/-- The first pool ends behind its first block. -/
theorem outline_head (hfollows : blocks.IsChain Block.Follows)
    (hends : ∀ b ∈ blocks.getLast?, b.kind = .sentinel) (hb : b ∈ blocks.head?) :
    ∃ e rest, outline start blocks = ⟨start.getD b.addr, e⟩ :: rest ∧ b.addr ≤ e ∧
      (b.kind ≠ .sentinel → b.stop ≤ e) := by
  induction blocks generalizing start b with
  | nil => cases hb
  | cons c blocks ih =>
    obtain rfl := Option.some.inj hb
    by_cases hkind : c.kind = .sentinel
    · rw [outline, if_pos hkind]
      exact ⟨_, _, rfl, Nat.le_refl _, fun h => absurd hkind h⟩
    · rw [outline, if_neg hkind]
      cases blocks with
      | nil => exact absurd (hends c (by simp)) hkind
      | cons d blocks =>
        have hstop := (List.isChain_cons_cons.mp hfollows).1.stop_le
        obtain ⟨e, rest, heq, hle, -⟩ := @ih (some (start.getD c.addr)) d hfollows.tail
          (by simpa using hends) rfl
        have haddr : c.addr ≤ c.stop := Nat.le_add_right _ _
        exact ⟨e, rest, heq, by omega, fun _ => by omega⟩

/-- A block is in one of the pools. -/
theorem mem_outline (hfollows : blocks.IsChain Block.Follows)
    (hends : ∀ b ∈ blocks.getLast?, b.kind = .sentinel) (hsized : ∀ b ∈ blocks, b.Sized)
    (hstart : ∀ s ∈ start, ∀ b ∈ blocks.head?, s ≤ b.addr) (hb : b ∈ blocks) :
    ∃ pool ∈ outline start blocks, pool.lo ≤ b.addr ∧ b.stop ≤ pool.hi + sizeofBhead ∧
      (b.kind ≠ .sentinel → b.stop ≤ pool.hi) := by
  induction blocks generalizing start with
  | nil => cases hb
  | cons c blocks ih =>
    have hc := hsized c List.mem_cons_self
    have hle : start.getD c.addr ≤ c.addr := by
      cases start with
      | none => exact Nat.le_refl _
      | some s => exact hstart s rfl c rfl
    have hends' : ∀ b ∈ blocks.getLast?, b.kind = .sentinel := by
      cases blocks with
      | nil => simp
      | cons d blocks => simpa using hends
    have hsized' := fun b hb => hsized b (List.mem_cons_of_mem c hb)
    by_cases hkind : c.kind = .sentinel
    · rw [outline, if_pos hkind]
      rcases List.mem_cons.mp hb with rfl | hb
      · have hsize := hc.2
        rw [if_pos hkind] at hsize
        exact ⟨_, List.mem_cons_self, hle, by rw [Block.stop, hsize], fun hb => absurd hkind hb⟩
      · obtain ⟨pool, hpool, hin⟩ := @ih none hfollows.tail hends' hsized' (by simp) hb
        exact ⟨pool, List.mem_cons_of_mem _ hpool, hin⟩
    · rw [outline, if_neg hkind]
      cases blocks with
      | nil => exact absurd (hends c (by simp)) hkind
      | cons d blocks =>
        have hcd := (List.isChain_cons_cons.mp hfollows).1
        have hstop := hcd.stop_le
        have hpos := hc.pos
        rcases List.mem_cons.mp hb with rfl | hb
        · obtain ⟨e, rest, heq, -, hend⟩ := @outline_head _ start _ hfollows hends rfl
          rw [outline, if_neg hkind] at heq
          have hend := hend hkind
          exact ⟨_, heq ▸ List.mem_cons_self, hle, by dsimp only; omega, fun _ => hend⟩
        · refine ih hfollows.tail hends' hsized' ?_ hb
          intro s hs e he
          obtain rfl := Option.some.inj hs
          obtain rfl := Option.some.inj he
          omega

/-- If every block is free, a pool is one free block. -/
theorem blocks_of_outline (hfollows : blocks.IsChain Block.Follows)
    (hends : ∀ b ∈ blocks.getLast?, b.kind = .sentinel) (hsized : ∀ b ∈ blocks, b.Sized)
    (hfree : ∀ b ∈ blocks, b.kind ≠ .allocated) :
    blocks = (outline none blocks).flatMap freePool := by
  induction blocks with
  | nil => rfl
  | cons b blocks ih =>
    have hb := hsized b List.mem_cons_self
    have hends' : ∀ b ∈ blocks.getLast?, b.kind = .sentinel := by
      cases blocks with
      | nil => simp
      | cons c blocks => simpa using hends
    have hrest := ih hfollows.tail hends' (fun c hc => hsized c (List.mem_cons_of_mem b hc))
      fun c hc => hfree c (List.mem_cons_of_mem b hc)
    have hsentinel : ∀ c ∈ b :: blocks, c.kind = .sentinel →
        (⟨c.addr, sizeofBhead, .sentinel⟩ : Block) = c := by
      intro c hc hkind
      have hsize := (hsized c hc).2
      rw [if_pos hkind] at hsize
      rw [← hsize, ← hkind]
    by_cases hkind : b.kind = .sentinel
    · rw [outline, if_pos hkind, List.flatMap_cons, ← hrest, Option.getD_none, freePool, if_pos rfl,
        hsentinel b List.mem_cons_self hkind]
      rfl
    · cases blocks with
      | nil => exact absurd (hends b (by simp)) hkind
      | cons c blocks =>
        have hbFree : b.kind = .free := by
          have hnot := hfree b List.mem_cons_self
          cases hk : b.kind with
          | free => rfl
          | allocated => exact absurd hk hnot
          | sentinel => exact absurd hk hkind
        have hbc := (List.isChain_cons_cons.mp hfollows).1
        rw [Block.Follows, if_neg hkind] at hbc
        have hcKind : c.kind = .sentinel := by
          have hnot := hfree c (by simp)
          have hnot' := hbc.2 hbFree
          cases hk : c.kind with
          | free => exact absurd hk hnot'
          | allocated => exact absurd hk hnot
          | sentinel => rfl
        have hroom := (hb.room hkind).1
        have hlen : c.addr - b.addr = b.size := by
          rw [hbc.1, Block.stop, Nat.add_sub_cancel_left]
        rw [outline, if_pos hcKind, List.flatMap_cons, Option.getD_none, freePool, if_pos rfl,
          hsentinel c (by simp) hcKind] at hrest
        rw [outline, if_neg hkind, outline, if_pos hcKind, List.flatMap_cons, Option.getD_none,
          Option.getD_some, freePool]
        dsimp only
        rw [if_neg (by simp only [Block.stop] at hroom hbc; omega), hlen, ← hbFree,
          hsentinel c (by simp) hcKind, List.cons_append]
        exact congrArg (b :: ·) hrest

end Outline

/-! ## What is released -/

section Released

variable {m : Bytes} {freelist a z s e : Nat} {front mid back blocks : List Block} {b : Block}

theorem mergeNext_eq (h : Tiling freelist (front ++ (mid ++ back))) (hmid : Fills mid s e)
    (hne : mid ≠ []) : ∃ after back' e', back = after ++ back' ∧ (∀ b ∈ after, b.kind = .free) ∧
      Fills (mid ++ after) s e' ∧ mergeNext s (e - s) back = ⟨s, e' - s, .free⟩ :: back' := by
  obtain ⟨y, rest, rfl, haddr⟩ := h.next_of_covers hmid hne
  by_cases hy : y.kind = .free
  · refine ⟨[y], rest, y.stop, rfl, by simpa using hy, hmid.append ⟨by simp [hy], haddr, rfl⟩, ?_⟩
    have hle := hmid.le
    have hsize : e - s + y.size = y.stop - s := by
      unfold Block.stop
      omega
    rw [mergeNext, if_pos hy, hsize]
  · refine ⟨[], y :: rest, e, rfl, by simp, by simpa using hmid, ?_⟩
    rw [mergeNext, if_neg hy]

/-- A released block is part of a free block made of it and of the free blocks beside it. -/
theorem release_eq (h : Tiling freelist (front ++ ⟨a, z, .allocated⟩ :: back)) :
    ∃ front' before after back' s e, front = front' ++ before ∧ back = after ++ back' ∧
      (∀ b ∈ before ++ after, b.kind = .free) ∧ Fills (before ++ ⟨a, z, .allocated⟩ :: after) s e ∧
      release front a z back = front' ++ ⟨s, e - s, .free⟩ :: back' := by
  rw [release]
  split
  · rename_i p hlast
    by_cases hp : p.kind = .free
    · obtain ⟨front, rfl⟩ : ∃ bs, front = bs ++ [p] :=
        ⟨_, (List.dropLast_append_getLast? p hlast).symm⟩
      have hassoc : front ++ [p] ++ ⟨a, z, .allocated⟩ :: back =
          front ++ ([p, ⟨a, z, .allocated⟩] ++ back) := by simp
      have h' : Tiling freelist (front ++ ([p, ⟨a, z, .allocated⟩] ++ back)) := hassoc ▸ h
      have hfollows := (List.isChain_append_cons_cons.mp h'.follows).2.1
      rw [Block.Follows, if_neg (by simp [hp])] at hfollows
      have haddr : a = p.addr + p.size := hfollows.1
      have hmid : Fills [p, ⟨a, z, .allocated⟩] p.addr (a + z) :=
        ⟨by simp [hp], rfl, by simp, hfollows.1, rfl⟩
      obtain ⟨after, back', e', rfl, hfree, hcover, hmerge⟩ := mergeNext_eq h' hmid (by simp)
      refine ⟨front, [p], after, back', p.addr, e', rfl, rfl, ?_, hcover, ?_⟩
      · exact List.forall_mem_cons.mpr ⟨hp, hfree⟩
      · rw [if_pos hp, List.dropLast_concat, show p.size + z = a + z - p.addr by omega, hmerge]
    · have hmid : Fills [⟨a, z, .allocated⟩] a (a + z) := ⟨by simp, rfl, rfl⟩
      obtain ⟨after, back', e', rfl, hfree, hcover, hmerge⟩ :=
        @mergeNext_eq _ _ _ _ [⟨a, z, .allocated⟩] _ h hmid (by simp)
      rw [Nat.add_sub_cancel_left] at hmerge
      exact ⟨front, [], after, back', a, e', by simp, rfl, hfree, hcover, by rw [if_neg hp, hmerge]⟩
  · have hmid : Fills [⟨a, z, .allocated⟩] a (a + z) := ⟨by simp, rfl, rfl⟩
    obtain ⟨after, back', e', rfl, hfree, hcover, hmerge⟩ :=
      @mergeNext_eq _ _ _ _ [⟨a, z, .allocated⟩] _ h hmid (by simp)
    rw [Nat.add_sub_cancel_left] at hmerge
    exact ⟨front, [], after, back', a, e', by simp, rfl, hfree, hcover, by rw [hmerge]⟩

end Released

/-! ## The invariant -/

/-- A well-formed heap of aligned blocks in these pools. -/
structure Heap (m : Bytes) (freelist : Nat) (pools : List Span) (blocks : List Block) : Prop where
  wellFormed : WellFormed m freelist blocks
  aligned : ∀ b ∈ blocks, sizeQuant ∣ b.addr ∧ sizeQuant ∣ b.size
  pools : outline none blocks = pools

/-- The same blocks are allocated. -/
def SameAllocated (blocks blocks' : List Block) : Prop :=
  ∀ b : Block, b.kind = .allocated → (b ∈ blocks' ↔ b ∈ blocks)

/-- The allocated blocks keep what is in them. -/
def SameContents (blocks : List Block) (m m' : Bytes) : Prop :=
  ∀ b ∈ blocks, b.kind = .allocated → b.SamePayload m m'

/-- A block of at least `n` bytes has been allocated, and its buffer is at `r`. -/
structure Taken (m : Bytes) (freelist : Nat) (pools : List Span) (blocks : List Block) (n : Nat) (r : Word)
    (m' : Bytes) (front : List Block) (a z : Nat) (back : List Block) : Prop where
  heap : Heap m' freelist pools (front ++ ⟨a, z, .allocated⟩ :: back)
  addr : r.toNat = a + sizeofBhead
  size : n ≤ z
  others : SameAllocated blocks (front ++ back)
  contents : SameContents (front ++ back) m m'

/-- There is no free block of `n` bytes. -/
def Exhausted (blocks : List Block) (n : Nat) : Prop := ∀ b ∈ blocks, b.kind = .free → b.size < n

section Heap

variable {m m' : Bytes} {freelist a z n : Nat} {pools : List Span} {front back blocks : List Block}
  {r s : Word}

theorem blockBytes_dvd (t : Nat) : sizeQuant ∣ blockBytes t := by
  unfold blockBytes
  exact Nat.dvd_add (Nat.dvd_mul_left _ _) (by decide)

theorem Fills.dvd {bs : List Block} {e : Nat} (h : Fills bs a e) (hne : bs ≠ [])
    (hbs : ∀ b ∈ bs, sizeQuant ∣ b.addr ∧ sizeQuant ∣ b.size) : sizeQuant ∣ a ∧ sizeQuant ∣ e - a := by
  induction bs generalizing a with
  | nil => exact absurd rfl hne
  | cons b bs ih =>
    obtain ⟨-, rfl, hrest⟩ := h
    obtain ⟨hb, hbs⟩ := List.forall_mem_cons.mp hbs
    refine ⟨hb.1, ?_⟩
    by_cases hnil : bs = []
    · subst hnil
      obtain rfl : b.stop = e := hrest
      rw [Block.stop, Nat.add_sub_cancel_left]
      exact hb.2
    · have hle := hrest.le
      have hdvd := (ih hrest hnil hbs).2
      have hsplit : e - b.addr = b.size + (e - b.stop) := by
        unfold Block.stop at hle ⊢
        omega
      rw [hsplit]
      exact Nat.dvd_add hb.2 hdvd

/-- A heap has few blocks. -/
theorem Tiling.length_le (h : Tiling freelist blocks) : 8 * blocks.length ≤ 2 ^ 32 := by
  have hsorted := h.sorted
  have hsized := h.sized
  suffices hlo : ∀ lo, lo ≤ 2 ^ 32 → (∀ b ∈ blocks, lo ≤ b.addr) → lo + 8 * blocks.length ≤ 2 ^ 32 by
    simpa using hlo 0 (Nat.zero_le _) fun _ _ => Nat.zero_le _
  clear h
  induction blocks with
  | nil => simp
  | cons b blocks ih =>
    intro lo _ hle
    obtain ⟨hb, hsorted⟩ := List.pairwise_cons.mp hsorted
    have hpos := (hsized b List.mem_cons_self).pos
    have hend := (hsized b List.mem_cons_self).1
    have hrest := ih hsorted (fun c hc => hsized c (List.mem_cons_of_mem b hc)) b.stop hend hb
    have hlo := hle b List.mem_cons_self
    rw [List.length_cons]
    omega

theorem Tiling.freeAddrs_length_le (h : Tiling freelist blocks) : (freeAddrs blocks).length ≤ 2 ^ 29 := by
  have hlen := h.length_le
  have hfilter : (freeAddrs blocks).length ≤ blocks.length := by
    rw [freeAddrs, List.length_map]
    exact List.length_filter_le _ _
  omega

/-- What is in the payload of an allocated block does not matter. -/
theorem WellFormed.write (h : WellFormed m freelist (front ++ ⟨a, z, .allocated⟩ :: back))
    (hsame : ∀ x, x < a + 8 ∨ a + z ≤ x → m' x = m x) :
    WellFormed m' freelist (front ++ ⟨a, z, .allocated⟩ :: back) := by
  have hxMem : (⟨a, z, .allocated⟩ : Block) ∈ front ++ ⟨a, z, .allocated⟩ :: back := by simp
  refine ⟨h.tiling, h.headers.frame (fun b hb x hlo hhi => ?_) hsame, ?_⟩
  · have hpos := (h.tiling.sized b hb).pos
    by_cases hbx : b = ⟨a, z, .allocated⟩
    · subst hbx
      dsimp only at hlo hhi
      omega
    · have hapart := h.tiling.apart_of_ne hb hxMem hbx
      simp only [Block.stop] at hapart hpos
      omega
  · obtain ⟨nodes, hperm, hring⟩ := h.list
    refine ⟨nodes, hperm, ring_frame hring fun x hx y hlo hhi => hsame y ?_⟩
    have hxX := (h.tiling.node_apart ((hperm.cons freelist).subset hx) hxMem).resolve_left (by simp)
    simp only [Block.stop] at hxX
    omega

theorem Heap.write (h : Heap m freelist pools (front ++ ⟨a, z, .allocated⟩ :: back))
    (hsame : ∀ x, x < a + 8 ∨ a + z ≤ x → m' x = m x) :
    Heap m' freelist pools (front ++ ⟨a, z, .allocated⟩ :: back) :=
  ⟨h.wellFormed.write hsame, h.aligned, h.pools⟩

/-- A block in the middle shares no address with another. -/
theorem Tiling.beside_of_mem (h : Tiling freelist (front ++ ⟨a, z, .allocated⟩ :: back)) {b : Block}
    (hb : b ∈ front ++ back) : b ≠ ⟨a, z, .allocated⟩ ∧ (b.stop ≤ a ∨ a + z ≤ b.addr) := by
  have hpos : ∀ c ∈ front ++ ⟨a, z, .allocated⟩ :: back, c.addr + 8 ≤ c.stop := fun c hc =>
    (h.sized c hc).pos
  have hsplit := h.split
  have hapart : b.stop ≤ a ∨ a + z ≤ b.addr :=
    (List.mem_append.mp hb).imp (hsplit.1 b) (hsplit.2 b)
  refine ⟨?_, hapart⟩
  rintro rfl
  have hb' := hpos _ (List.mem_append_right _ List.mem_cons_self)
  simp only [Block.stop] at hapart hb'
  omega

/-- `bget` on a heap: it fails if no free block is large enough, and takes a block else. -/
theorem bget_serves {fuel : Nat} (h : Heap m freelist pools blocks) (hpos : 0 < s.toNat)
    (hlt : s.toNat + 16 ≤ 2 ^ 31) (hfuel : 2 ^ 29 < fuel) :
    Returns (bget freelist fuel s) m fun r m' =>
      (r = 0 ∧ m' = m ∧ Exhausted blocks (blockBytes s.toNat)) ∨
        ∃ front a z back, Taken m freelist pools blocks (blockBytes s.toNat) r m' front a z back ∧
          ¬ Exhausted blocks (blockBytes s.toNat) := by
  have hfew := h.wellFormed.tiling.freeAddrs_length_le
  refine (bget_allocates h.wellFormed hpos hlt (by omega)).imp ?_
  rintro r m' (hnone | ⟨front, a, z, back, rfl, hn, hcontents, hcases⟩)
  · exact Or.inl hnone
  refine Or.inr ?_
  have hfits : ¬ Exhausted (front ++ ⟨a, z, .free⟩ :: back) (blockBytes s.toNat) := fun hnone =>
    Nat.not_lt.mpr hn (hnone ⟨a, z, .free⟩ (by simp) rfl)
  have hwhole : Fills [⟨a, z, .free⟩] a (a + z) := ⟨by simp, rfl, rfl⟩
  have hothers : SameAllocated (front ++ ⟨a, z, .free⟩ :: back) (front ++ back) := by
    intro b hb
    simp only [List.mem_append, List.mem_cons]
    refine ⟨fun hmem => hmem.imp_right Or.inr, fun hmem => hmem.imp_right fun hmem => ?_⟩
    refine hmem.resolve_left ?_
    rintro rfl
    cases hb
  obtain ⟨hda, hdz⟩ := h.aligned ⟨a, z, .free⟩ (by simp)
  have houter : ∀ b ∈ front ++ back, sizeQuant ∣ b.addr ∧ sizeQuant ∣ b.size := by
    intro b hb
    refine h.aligned b ?_
    simp only [List.mem_append, List.mem_cons] at hb ⊢
    exact hb.imp_right Or.inr
  have hpools := h.pools
  rcases hcases with ⟨-, hr, hwell⟩ | ⟨hlarge, hr, hwell⟩
  · refine ⟨front, a, z, back, ⟨⟨hwell, fun b hb => ?_, ?_⟩, hr, hn, hothers, hcontents⟩, hfits⟩
    · simp only [List.mem_append, List.mem_cons] at hb
      rcases hb with hb | rfl | hb
      · exact houter b (List.mem_append_left _ hb)
      · exact ⟨hda, hdz⟩
      · exact houter b (List.mem_append_right _ hb)
    · rw [← hpools]
      have htaken : Fills [⟨a, z, .allocated⟩] a (a + z) := ⟨by simp, rfl, rfl⟩
      exact outline_exchange htaken hwhole (by simp) (by simp)
  · have hdn := blockBytes_dvd s.toNat
    have hdrest : sizeQuant ∣ z - blockBytes s.toNat := Nat.dvd_sub hdz hdn
    have hassoc : front ++ ⟨a, z - blockBytes s.toNat, .free⟩ ::
        ⟨a + (z - blockBytes s.toNat), blockBytes s.toNat, .allocated⟩ :: back =
        (front ++ [⟨a, z - blockBytes s.toNat, .free⟩]) ++
          ⟨a + (z - blockBytes s.toNat), blockBytes s.toNat, .allocated⟩ :: back := by simp
    refine ⟨front ++ [⟨a, z - blockBytes s.toNat, .free⟩], a + (z - blockBytes s.toNat),
      blockBytes s.toNat, back, ⟨⟨hassoc ▸ hwell, fun b hb => ?_, ?_⟩, hr, Nat.le_refl _, ?_, ?_⟩, hfits⟩
    · simp only [List.mem_append, List.mem_cons, List.not_mem_nil, or_false] at hb
      rcases hb with (hb | rfl) | rfl | hb
      · exact houter b (List.mem_append_left _ hb)
      · exact ⟨hda, hdrest⟩
      · exact ⟨Nat.dvd_add hda hdrest, hdn⟩
      · exact houter b (List.mem_append_right _ hb)
    · rw [← hassoc, ← hpools]
      have hparts : Fills [⟨a, z - blockBytes s.toNat, .free⟩,
          ⟨a + (z - blockBytes s.toNat), blockBytes s.toNat, .allocated⟩] a (a + z) := by
        refine ⟨by simp, rfl, by simp, rfl, ?_⟩
        simp only [Fills, Block.stop]
        omega
      exact outline_exchange hparts hwhole (by simp) (by simp)
    · intro b hb
      rw [← hothers b hb]
      simp only [List.mem_append, List.mem_singleton]
      refine or_congr_left (or_iff_left ?_)
      rintro rfl
      cases hb
    · intro b hb hkind
      refine hcontents b ?_ hkind
      simp only [List.mem_append, List.mem_singleton] at hb ⊢
      refine hb.imp_left fun hb => hb.resolve_right ?_
      rintro rfl
      cases hkind

/-- `brel` on a heap. -/
theorem brel_serves (h : Heap m freelist pools (front ++ ⟨a, z, .allocated⟩ :: back))
    (hr : r.toNat = a + sizeofBhead) :
    Returns (brel freelist r) m fun _ m' => ∃ blocks', Heap m' freelist pools blocks' ∧
      SameAllocated (front ++ back) blocks' ∧ SameContents (front ++ back) m m' := by
  refine (brel_frees h.wellFormed hr).imp ?_
  rintro - m' ⟨hwell, hcontents⟩
  obtain ⟨front', before, after, back', s, e, rfl, rfl, hfree, hcover, hrelease⟩ :=
    release_eq h.wellFormed.tiling
  rw [hrelease] at hwell
  have hne : before ++ ⟨a, z, .allocated⟩ :: after ≠ [] := by simp
  have hassoc : front' ++ before ++ ⟨a, z, .allocated⟩ :: (after ++ back') =
      front' ++ ((before ++ ⟨a, z, .allocated⟩ :: after) ++ back') := by simp
  have haligned : ∀ b ∈ before ++ ⟨a, z, .allocated⟩ :: after, sizeQuant ∣ b.addr ∧ sizeQuant ∣ b.size :=
    fun b hb => h.aligned b (hassoc ▸ List.mem_append_right _ (List.mem_append_left _ hb))
  refine ⟨_, ⟨hwell, fun b hb => ?_, ?_⟩, fun b hb => ?_, hcontents⟩
  · simp only [List.mem_append, List.mem_cons] at hb
    rcases hb with hb | rfl | hb
    · exact h.aligned b (by simp [hb])
    · exact hcover.dvd hne haligned
    · exact h.aligned b (by simp [hb])
  · rw [← h.pools, hassoc]
    have hlt : s < e := by
      have hx := hcover.mem (b := ⟨a, z, .allocated⟩) (by simp)
      have hpos := (h.wellFormed.tiling.sized ⟨a, z, .allocated⟩ (by simp)).pos
      simp only [Block.stop] at hx hpos
      omega
    have hfree : Fills [⟨s, e - s, .free⟩] s e := by
      refine ⟨by simp, rfl, ?_⟩
      simp only [Fills, Block.stop]
      omega
    exact outline_exchange hfree hcover (by simp) hne
  · have hnot : ∀ c ∈ before ++ after, b ≠ c := by
      rintro c hc rfl
      rw [hfree b hc] at hb
      cases hb
    simp only [List.mem_append, List.mem_cons]
    have hnew : b ≠ ⟨s, e - s, .free⟩ := by
      rintro rfl
      cases hb
    have hbefore : b ∉ before := fun hmem => hnot b (List.mem_append_left _ hmem) rfl
    have hafter : b ∉ after := fun hmem => hnot b (List.mem_append_right _ hmem) rfl
    tauto

end Heap

/-! ## The requests -/

/-- A buffer of a block of `n` bytes has been given, besides the allocated blocks in `others`. -/
structure GivenOut (m : Bytes) (freelist : Nat) (pools : List Span) (others : Block → Prop) (n : Nat)
    (r : Word) (m' : Bytes) (blocks : List Block) (block : Block) : Prop where
  heap : Heap m' freelist pools blocks
  kind : block.kind = .allocated
  addr : r.toNat = block.addr + sizeofBhead
  size : n ≤ block.size
  mem : ∀ b : Block, b.kind = .allocated → (b ∈ blocks ↔ b = block ∨ others b)
  new : ¬ others block
  contents : ∀ b : Block, others b → b.kind = .allocated → b.SamePayload m m'

section Requests

variable {m m₁ m₂ : Bytes} {freelist fuel a z n : Nat} {pools : List Span} {front back blocks : List Block}
  {r s buf : Word} {old : Block} {Q : Word → Bytes → Prop}

theorem Taken.write (h : Taken m freelist pools blocks n r m₁ front a z back)
    (hsame : ∀ x, x < a + 8 ∨ a + z ≤ x → m₂ x = m₁ x) :
    Taken m freelist pools blocks n r m₂ front a z back where
  heap := h.heap.write hsame
  addr := h.addr
  size := h.size
  others := h.others
  contents b hb hkind x hlo hhi := by
    have hbeside := (h.heap.wellFormed.tiling.beside_of_mem hb).2
    rw [hsame x (by omega), h.contents b hb hkind x hlo hhi]

theorem Taken.granted (h : Taken m freelist pools blocks n r m₁ front a z back) :
    GivenOut m freelist pools (· ∈ blocks) n r m₁ (front ++ ⟨a, z, .allocated⟩ :: back)
      ⟨a, z, .allocated⟩ where
  heap := h.heap
  kind := rfl
  addr := h.addr
  size := h.size
  mem b hb := by
    rw [← h.others b hb]
    simp only [List.mem_append, List.mem_cons]
    tauto
  new hmem := by
    rw [← h.others _ rfl] at hmem
    exact (h.heap.wellFormed.tiling.beside_of_mem hmem).1 rfl
  contents b hb hkind := h.contents b ((h.others b hkind).mpr hb) hkind

/-- One of the other buffers is given back. -/
theorem GivenOut.release {block : Block} (h : GivenOut m freelist pools (· ∈ blocks) n r m₁ back block)
    (hold : old ∈ blocks) (hkind : old.kind = .allocated) (hbuf : buf.toNat = old.addr + sizeofBhead) :
    Returns (brel freelist buf) m₁ fun _ m₂ => ∃ blocks',
      GivenOut m freelist pools (fun b => b ∈ blocks ∧ b ≠ old) n r m₂ blocks' block ∧
        block.SamePayload m₁ m₂ := by
  have holdMem : old ∈ back := (h.mem old hkind).mpr (Or.inr hold)
  have hblockMem : block ∈ back := (h.mem block h.kind).mpr (Or.inl rfl)
  have hblockNe : block ≠ old := fun heq => h.new (heq ▸ hold)
  obtain ⟨before, after, rfl⟩ := List.append_of_mem holdMem
  obtain ⟨oa, oz, okind⟩ := old
  obtain rfl : okind = .allocated := hkind
  have hothers : ∀ b ∈ before ++ after, b ≠ ⟨oa, oz, .allocated⟩ := fun b hb =>
    (h.heap.wellFormed.tiling.beside_of_mem hb).1
  have hsides : ∀ b, b ∈ before ++ after ↔
      b ∈ before ++ ⟨oa, oz, .allocated⟩ :: after ∧ b ≠ ⟨oa, oz, .allocated⟩ := by
    intro b
    constructor
    · intro hmem
      refine ⟨?_, hothers b hmem⟩
      simp only [List.mem_append, List.mem_cons] at hmem ⊢
      exact hmem.imp_right Or.inr
    · rintro ⟨hmem, hnot⟩
      simp only [List.mem_append, List.mem_cons] at hmem ⊢
      exact hmem.imp_right fun hmem => hmem.resolve_left hnot
  refine (brel_serves h.heap hbuf).imp ?_
  rintro - m₂ ⟨blocks', hheap, hsame, hcontents⟩
  refine ⟨blocks', ⟨hheap, h.kind, h.addr, h.size, fun b hb => ?_, fun hmem => h.new hmem.1,
    fun b hb hbKind x hlo hhi => ?_⟩, hcontents block ((hsides block).mpr ⟨hblockMem, hblockNe⟩) h.kind⟩
  · rw [hsame b hb, hsides, h.mem b hb]
    constructor
    · rintro ⟨rfl | hmem, hnot⟩
      · exact Or.inl rfl
      · exact Or.inr ⟨hmem, hnot⟩
    · rintro (rfl | ⟨hmem, hnot⟩)
      · exact ⟨Or.inl rfl, hblockNe⟩
      · exact ⟨Or.inr hmem, hnot⟩
  · have hmem := (hsides b).mpr ⟨(h.mem b hbKind).mpr (Or.inr hb.1), hb.2⟩
    rw [hcontents b hmem hbKind x hlo hhi, h.contents b hb.1 hbKind x hlo hhi]

/-- `bgetz` clears all of the buffer. -/
theorem bgetz_serves (h : Heap m freelist pools blocks) (hpos : 0 < s.toNat)
    (hlt : s.toNat + 16 ≤ 2 ^ 31) (hfuel : 2 ^ 29 < fuel) :
    Returns (bgetz freelist fuel s) m fun r m' =>
      (r = 0 ∧ m' = m ∧ Exhausted blocks (blockBytes s.toNat)) ∨
        ∃ blocks' block, GivenOut m freelist pools (· ∈ blocks) (blockBytes s.toNat) r m' blocks' block ∧
          (∀ x, r.toNat ≤ x → x < block.stop → m' x = 0) ∧ ¬ Exhausted blocks (blockBytes s.toNat) := by
  refine returns_bind (bget_serves h hpos hlt hfuel) ?_
  rintro r m₁ (⟨rfl, rfl, hnone⟩ | ⟨front, a, z, back, htaken, hsome⟩)
  · exact returns_pure (Or.inl ⟨rfl, rfl, hnone⟩)
  have haddr := htaken.addr
  have hne : r ≠ 0 := by
    rintro rfl
    simp [sizeofBhead] at haddr
  have hblock : bsizeOf m₁ a = -(z : Int) :=
    htaken.heap.wellFormed.headers.bsize (b := ⟨a, z, .allocated⟩) (by simp)
  have hsize := htaken.size
  have hfits := le_blockBytes s.toNat
  have hs : s.toInt = s.toNat := BitVec.toInt_eq_toNat_of_lt (by omega)
  have hb : r.toNat - sizeofBhead = a := by rw [haddr, Nat.add_sub_cancel]
  rw [if_neg hne, hb]
  refine returns_bind_iff.mpr (returns_bsize.mpr (returns_get_bind ?_))
  have hnonzero : (z : Int) ≠ 0 := by omega
  dsimp only
  rw [hblock, Int.neg_neg, if_neg hnonzero]
  refine returns_bind_iff.mpr (returns_heapAssert.mpr ⟨?_, ?_⟩)
  · simp only [sizeofBhead]
    omega
  refine returns_bind_iff.mpr (returns_modify (returns_pure (Or.inr ?_)))
  have hlen : ((z : Int) - sizeofBhead).toNat = z - 8 := by
    simp only [sizeofBhead]
    omega
  rw [hlen]
  simp only [sizeofBhead] at haddr
  refine ⟨_, _, (htaken.write fun x hx => ?_).granted, fun x hlo hhi => ?_, hsome⟩
  · rw [if_neg (by omega)]
  · simp only [Block.stop] at hhi
    rw [if_pos (by omega)]

/-- `bgetr` of no buffer, or of one that is given back after its bytes have been copied. -/
theorem bgetr_serves (h : Heap m freelist pools blocks) (hpos : 0 < s.toNat)
    (hlt : s.toNat + 16 ≤ 2 ^ 31) (hfuel : 2 ^ 29 < fuel) (hold : old ∈ blocks)
    (hkind : old.kind = .allocated) (hbuf : buf.toNat = old.addr + sizeofBhead) :
    Returns (bgetr freelist fuel buf s) m fun r m' =>
      (r = 0 ∧ m' = m ∧ Exhausted blocks (blockBytes s.toNat)) ∨
        ∃ blocks' block, GivenOut m freelist pools (fun b => b ∈ blocks ∧ b ≠ old) (blockBytes s.toNat) r m'
          blocks' block ∧
          (∀ i, i < s.toNat → buf.toNat + i < old.stop → m' (r.toNat + i) = m (buf.toNat + i)) ∧
          ¬ Exhausted blocks (blockBytes s.toNat) := by
  obtain ⟨oa, oz, okind⟩ := old
  obtain rfl : okind = .allocated := hkind
  have hbuf : buf.toNat = oa + 8 := hbuf
  have hs : s.toInt = s.toNat := BitVec.toInt_eq_toNat_of_lt (by omega)
  have hbufNe : buf ≠ 0 := by
    rintro rfl
    simp at hbuf
  have hb : buf.toNat - sizeofBhead = oa := by rw [hbuf, sizeofBhead, Nat.add_sub_cancel]
  refine returns_bind (bget_serves h hpos hlt hfuel) ?_
  rintro r m₁ (⟨rfl, rfl, hnone⟩ | ⟨front, a, z, back, htaken, hsome⟩)
  · rw [if_pos rfl]
    exact returns_pure (Or.inl ⟨rfl, rfl, hnone⟩)
  have haddr := htaken.addr
  have hne : r ≠ 0 := by
    rintro rfl
    simp [sizeofBhead] at haddr
  have holdMem : (⟨oa, oz, .allocated⟩ : Block) ∈ front ++ back := (htaken.others _ rfl).mpr hold
  have holdMem' : (⟨oa, oz, .allocated⟩ : Block) ∈ front ++ ⟨a, z, .allocated⟩ :: back := by
    simp only [List.mem_append, List.mem_cons] at holdMem ⊢
    exact holdMem.imp_right Or.inr
  have hroom := (htaken.heap.wellFormed.tiling.sized _ holdMem').room (by simp)
  have hbeside := (htaken.heap.wellFormed.tiling.beside_of_mem holdMem).2
  have hsize := htaken.size
  have hfits := le_blockBytes s.toNat
  have hblock : bsizeOf m₁ oa = -(oz : Int) :=
    htaken.heap.wellFormed.headers.bsize (b := ⟨oa, oz, .allocated⟩) holdMem'
  simp only [Block.stop] at hroom hbeside
  rw [if_neg hne, if_neg hbufNe, hb]
  refine returns_bind_iff.mpr (returns_bsize.mpr ?_)
  dsimp only
  rw [hblock, Int.neg_neg]
  refine returns_bind_iff.mpr (returns_heapAssert.mpr ⟨?_, ?_⟩)
  · simp only [sizeofBhead]
    omega
  refine returns_bind_iff.mpr (returns_modify ?_)
  have hlen : (if s.toInt < (oz : Int) - sizeofBhead then s.toInt
      else (oz : Int) - sizeofBhead).toNat = min s.toNat (oz - 8) := by
    rw [hs]
    unfold sizeofBhead
    by_cases hless : (s.toNat : Int) < oz - (8 : Nat)
    · rw [if_pos hless]
      omega
    · rw [if_neg hless]
      omega
  rw [hlen]
  simp only [sizeofBhead] at haddr
  obtain ⟨m₂, hm₂⟩ : ∃ m₂ : Bytes, m₂ = fun x =>
      if r.toNat ≤ x ∧ x < r.toNat + min s.toNat (oz - 8) then m₁ (buf.toNat + (x - r.toNat))
      else m₁ x := ⟨_, rfl⟩
  rw [← hm₂]
  have htaken₂ : Taken m freelist pools blocks (blockBytes s.toNat) r m₂ front a z back :=
    htaken.write fun x hx => by rw [hm₂]; exact if_neg (by omega)
  refine returns_bind (htaken₂.granted.release hold rfl hbuf) ?_
  rintro - m₃ ⟨blocks', hgranted, hkeep⟩
  refine returns_pure (Or.inr ⟨blocks', _, hgranted, fun i hi hend => ?_, hsome⟩)
  have hkeep := hkeep (r.toNat + i)
  have holdBytes := htaken.contents _ holdMem rfl (buf.toNat + i)
  simp only [Block.stop, sizeofBhead] at hkeep holdBytes hend
  have hcopy : m₂ (r.toNat + i) = m₁ (buf.toNat + i) := by
    rw [hm₂]
    dsimp only
    rw [if_pos (by omega), Nat.add_sub_cancel_left]
  rw [hkeep (by omega) (by omega), hcopy, holdBytes (by omega) (by omega)]

end Requests

end SeCloak
