import SeCloak.Heap.Take

/-!
# What `brel` does (`bget.c:824-968`)

A block that is released becomes part of the free block before it or a free block of its own, and takes
in the free block behind it. In between its header is known to the block itself alone.
-/

namespace SeCloak
open Misc Code

/-! ## The blocks -/

/-- A free block in front of other blocks takes in the first one if that is free. -/
def mergeNext (a z : Nat) : List Block → List Block
  | [] => [⟨a, z, .free⟩]
  | y :: back => if y.kind = .free then ⟨a, z + y.size, .free⟩ :: back else ⟨a, z, .free⟩ :: y :: back

/-- The blocks after the one at `a` has been released. -/
def release (front : List Block) (a z : Nat) (back : List Block) : List Block :=
  match front.getLast? with
  | some p => if p.kind = .free then front.dropLast ++ mergeNext p.addr (p.size + z) back
    else front ++ mergeNext a z back
  | none => front ++ mergeNext a z back

section Middle

variable {freelist a e : Nat} {front mid back nodes : List Block} {b : Block}

/-- The blocks beside some blocks in a row. -/
theorem Tiling.outside (h : Tiling freelist (front ++ (mid ++ back))) (hmid : Fills mid a e)
    (hne : mid ≠ []) : (∀ b ∈ front, b.stop ≤ a) ∧ (∀ b ∈ back, e ≤ b.addr) ∧
      ∀ x ∈ freelist :: freeAddrs (front ++ back), x + 16 ≤ a ∨ e ≤ x := by
  obtain ⟨first, hfirst⟩ : ∃ b, mid.head? = some b := ⟨_, List.head?_eq_some_head hne⟩
  obtain ⟨last, hlast⟩ : ∃ b, mid.getLast? = some b := ⟨_, List.getLast?_eq_some_getLast hne⟩
  obtain ⟨hfrontSorted, hrest, hseam⟩ := List.pairwise_append.mp h.sorted
  obtain ⟨-, -, hseam'⟩ := List.pairwise_append.mp hrest
  have hfront : ∀ b ∈ front, b.stop ≤ a := by
    intro b hb
    have hle := hseam b hb first (List.mem_append_left _ (List.mem_of_head? hfirst))
    rwa [hmid.head hfirst] at hle
  have hback : ∀ b ∈ back, e ≤ b.addr := by
    intro b hb
    have hle := hseam' last (List.mem_of_getLast? hlast) b hb
    rwa [hmid.last hlast] at hle
  refine ⟨hfront, hback, fun x hx => ?_⟩
  rcases List.mem_cons.mp hx with rfl | hx
  · exact hmid.apart (fun b hb => h.apart b (List.mem_append_right _ (List.mem_append_left _ hb))) hne
  · obtain ⟨b, hb, hkind, rfl⟩ := mem_freeAddrs.mp hx
    rcases List.mem_append.mp hb with hb | hb
    · have hroom := ((h.sized b (List.mem_append_left _ hb)).room (by rw [hkind]; simp)).1
      exact Or.inl (Nat.le_trans hroom (hfront b hb))
    · exact Or.inr (hback b hb)

/-- The nodes of the free list that are not in the middle, and one that is. -/
theorem Tiling.nodesApart (h : Tiling freelist (front ++ (mid ++ back))) (hmid : Fills mid a e)
    (hne : mid ≠ []) (he : a + 16 ≤ e) : NodesApart (freelist :: a :: freeAddrs (front ++ back)) := by
  obtain ⟨-, -, hout⟩ := h.outside hmid hne
  have hold : freelist :: freeAddrs (front ++ back) ⊆ freelist :: freeAddrs (front ++ (mid ++ back)) := by
    refine List.cons_subset_cons _ fun x hx => ?_
    simp only [freeAddrs_append, List.mem_append] at hx ⊢
    exact hx.imp_right Or.inr
  have hcases : ∀ x ∈ freelist :: a :: freeAddrs (front ++ back),
      x = a ∨ x ∈ freelist :: freeAddrs (front ++ back) := by
    intro x hx
    simp only [List.mem_cons] at hx ⊢
    rcases hx with hx | hx | hx
    · exact Or.inr (Or.inl hx)
    · exact Or.inl hx
    · exact Or.inr (Or.inr hx)
  intro x hx y hy
  rcases hcases x hx with hxa | hxOld
  · rcases hcases y hy with hya | hyOld
    · exact Or.inl (hxa.trans hya.symm)
    · have hyOut := hout y hyOld
      omega
  · rcases hcases y hy with hya | hyOld
    · have hxOut := hout x hxOld
      omega
    · exact h.nodes_apart (hold hxOld) (hold hyOld)

/-- Blocks in a row are of one pool. -/
theorem Tiling.length_lt (h : Tiling freelist (front ++ (mid ++ back))) (hmid : Fills mid a e)
    (hne : mid ≠ []) : e - a < 2 ^ 31 := by
  have hshort := (short_append.mp (short_append.mp h.short).2).1
  rw [hmid.short hne] at hshort
  omega

/-- Blocks in a row are followed by another. -/
theorem Tiling.next_of_covers (h : Tiling freelist (front ++ (mid ++ back))) (hmid : Fills mid a e)
    (hne : mid ≠ []) : ∃ y rest, back = y :: rest ∧ y.addr = e := by
  obtain ⟨bs, last, rfl⟩ := (List.eq_nil_or_concat' mid).resolve_left hne
  have hlast : last ∈ (bs ++ [last]).getLast? := by simp
  have hkind := (hmid.mem (List.mem_of_getLast? hlast)).1
  have hassoc : front ++ (bs ++ [last] ++ back) = (front ++ bs) ++ last :: back := by simp
  obtain ⟨y, rest, rfl, hfollows⟩ := (hassoc ▸ h).exists_next hkind
  rw [Block.Follows, if_neg hkind] at hfollows
  exact ⟨y, rest, rfl, hfollows.1.trans (hmid.last hlast)⟩

end Middle

/-! ## A free block that the next one does not know -/

/-- The bytes from `a` to `e` are a free block on the free list; the header behind does not say so yet. -/
structure Opened (m : Bytes) (freelist : Nat) (front back : List Block) (a e : Nat) (m' : Bytes) : Prop where
  size : bsizeOf m' a = ((e - a : Nat) : Int)
  prev : prevfreeOf m' a = 0
  list : ∃ nodes, nodes.Perm (a :: freeAddrs (front ++ back)) ∧
    Ring (flinkOf m') (blinkOf m') freelist nodes
  changedIn : ChangedIn a e (freelist :: freeAddrs (front ++ back)) m m'

section Opened

variable {m m' : Bytes} {freelist a e : Nat} {front mid back : List Block} {c : Block}

/-- The header behind is told. -/
theorem Opened.close (h : Opened m freelist front (c :: back) a e m')
    (hwell : WellFormed m freelist (front ++ (mid ++ c :: back))) (hmid : Fills mid a e) (hne : mid ≠ [])
    (he : a + 16 ≤ e) (hbefore : ∀ b ∈ front.getLast?, b.kind ≠ .free) (haddr : c.addr = e)
    (hc : c.kind ≠ .free) :
    WellFormed (m'.store e (BitVec.ofInt 32 (e - a : Nat))) freelist
        (front ++ ⟨a, e - a, .free⟩ :: c :: back) ∧
      ∀ b ∈ front ++ c :: back, b.kind = .allocated →
        b.SamePayload m (m'.store e (BitVec.ofInt 32 (e - a : Nat))) := by
  obtain ⟨hfront, hback, hout⟩ := hwell.tiling.outside hmid hne
  obtain ⟨nodes, hperm, hring⟩ := h.list
  have hcMem : c ∈ front ++ (mid ++ c :: back) :=
    List.mem_append_right _ (List.mem_append_right _ List.mem_cons_self)
  have hcPos := (hwell.tiling.sized c hcMem).pos
  have hnew : Fills [⟨a, e - a, .free⟩] a e :=
    ⟨by simp, rfl, by simp only [Fills, Block.stop]; omega⟩
  have htiling := hwell.tiling.exchange hmid hnew hne (by simp) (by simp; omega)
    (List.isChain_singleton _) (fun b hb _ _ hfree => absurd hfree (hbefore b hb)) (by simp [hc])
  have hlt : e - a < 2 ^ 31 :=
    ((htiling.sized ⟨a, e - a, .free⟩ (by simp)).room (by simp)).2
  refine @WellFormed.edit _ _ _ _ _ _ [⟨a, e - a, .free⟩] _ _ hwell htiling hfront (by omega) ?_ ?_ ?_ ⟨nodes, ?_, ?_⟩
  · refine (h.changedIn.mono (Nat.le_refl _) (by omega) fun y hy => Or.inl hy).trans ?_
    exact changedIn_store (by omega) (by omega)
  · refine ⟨?_, ?_, trivial⟩
    · rw [prevfreeOf_store_apart (by dsimp only; omega), freeBefore_of_last hbefore]
      exact h.prev
    · rw [bsizeOf_store_apart (by dsimp only; omega)]
      exact h.size
  · rw [haddr, prevfreeOf_store (by omega) (by omega)]
    rfl
  · rw [List.singleton_append, freeAddrs_append, freeAddrs_cons_free rfl]
    rw [freeAddrs_append] at hperm
    exact hperm.trans List.perm_middle.symm
  · refine ring_frame hring fun x hx y hlo hhi => Bytes.store_apply_of_outside ?_
    rcases List.mem_cons.mp ((hperm.cons freelist).subset hx) with rfl | hx
    · have hxC := (hwell.tiling.node_apart List.mem_cons_self hcMem).resolve_left fun hfree => hc hfree.1
      omega
    · rcases List.mem_cons.mp hx with rfl | hx
      · omega
      · have hxMem := (@freeAddrs_outer_subset _ _ mid _ _) (List.mem_cons_of_mem freelist hx)
        have hxC := (hwell.tiling.node_apart hxMem hcMem).resolve_left fun hfree => hc hfree.1
        omega

/-- The header of another block. -/
theorem Opened.header (h : Opened m freelist front back a e m')
    (hwell : WellFormed m freelist (front ++ (mid ++ back))) (hmid : Fills mid a e) (hne : mid ≠ [])
    {b : Block} (hb : b ∈ back) :
    prevfreeOf m' b.addr = prevfreeOf m b.addr ∧ bsizeOf m' b.addr = bsizeOf m b.addr := by
  obtain ⟨-, hback, -⟩ := hwell.tiling.outside hmid hne
  have hbMem : b ∈ front ++ (mid ++ back) := List.mem_append_right _ (List.mem_append_right _ hb)
  have hpos := (hwell.tiling.sized b hbMem).pos
  have hle := hback b hb
  refine header_frame (S := fun x => m' x = m x) (fun x hlo hhi => ?_) fun _ hx => hx
  refine h.changedIn x (Or.inr (by omega)) fun y hy => ?_
  have hyMem : y ∈ freelist :: freeAddrs (front ++ (mid ++ back)) := by
    rw [freeAddrs_append, List.mem_cons, List.mem_append] at hy
    rw [freeAddrs_append, freeAddrs_append, List.mem_cons, List.mem_append, List.mem_append]
    tauto
  have hyb := hwell.tiling.node_apart hyMem hbMem
  omega

end Opened

/-! ## The two steps -/

section Steps

variable {m m' : Bytes} {freelist a z e : Nat} {front mid back : List Block} {p y : Block}

/-- The block is given to the free block before it. -/
theorem brelPrev_grows (h : WellFormed m freelist (front ++ ([p, ⟨a, z, .allocated⟩] ++ back)))
    (hp : p.kind = .free) :
    Returns (brelPrev freelist a) m fun r m' => r = p.addr ∧ Fills [p, ⟨a, z, .allocated⟩] r (a + z) ∧
      Opened m freelist front back r (a + z) m' := by
  obtain ⟨hfront, hprevP, hsizeP, hprevX, hsizeX, hback⟩ := headers_append.mp h.headers
  have hpMem : p ∈ front ++ p :: ⟨a, z, .allocated⟩ :: back := List.mem_append_right _ List.mem_cons_self
  have hfollows := (List.isChain_append_cons_cons.mp h.tiling.follows).2.1
  rw [Block.Follows, if_neg (by simp [hp])] at hfollows
  have haddr : a = p.addr + p.size := hfollows.1
  have hroom := (h.tiling.sized p hpMem).room (by simp [hp])
  simp only [Block.stop] at hroom
  have hmid : Fills [p, ⟨a, z, .allocated⟩] p.addr (a + z) :=
    ⟨by simp [hp], rfl, by simp, by simpa [Block.stop] using haddr, rfl⟩
  have hlt := h.tiling.length_lt hmid (by simp)
  have hbefore := freeBefore_of_last (h.tiling.before_free (show p.kind = .free from hp))
  simp only [Block.freeSize, Block.bsize, hp, if_true] at hsizeP hprevX hsizeX
  have hoffset : offset a (-(p.size : Int)) = p.addr := by
    unfold offset
    omega
  simp only [brelPrev, returns_bind_iff, returns_prevfree, hprevX]
  rw [if_pos (by omega)]
  simp only [returns_bind_iff, returns_bsize, returns_prevfree, returns_heapAssert, returns_setBsize,
    returns_pure_iff, hprevX, hoffset, hsizeP, hsizeX]
  have hsum : (p.size : Int) - -(z : Int) = ((a + z - p.addr : Nat) : Int) := by omega
  rw [hsum]
  refine ⟨trivial, trivial, hmid, bsizeOf_store (by omega) (by omega), ?_, ?_,
    changedIn_store (by omega) (by omega)⟩
  · rw [prevfreeOf_store_apart (by omega), hprevP, hbefore]
  · obtain ⟨nodes, hperm, hring⟩ := h.list
    refine ⟨nodes, ?_, ring_frame hring fun x hx w hlo hhi => Bytes.store_apply_of_outside ?_⟩
    · rw [List.cons_append, List.singleton_append, freeAddrs_append, freeAddrs_cons_free hp,
        freeAddrs_cons_of_ne (by simp)] at hperm
      rw [freeAddrs_append]
      exact hperm.trans List.perm_middle
    · have hxP := h.tiling.node_apart ((hperm.cons freelist).subset hx) hpMem
      simp only [Block.stop] at hxP
      omega

/-- The block becomes a free block. -/
theorem brelPrev_opens (h : WellFormed m freelist (front ++ ([⟨a, z, .allocated⟩] ++ back)))
    (hbefore : ∀ b ∈ front.getLast?, b.kind ≠ .free) :
    Returns (brelPrev freelist a) m fun r m' => r = a ∧ Fills [⟨a, z, .allocated⟩] r (a + z) ∧
      Opened m freelist front back r (a + z) m' := by
  obtain ⟨hfront, hprevX, hsizeX, hback⟩ := headers_append.mp h.headers
  have hxMem : (⟨a, z, .allocated⟩ : Block) ∈ front ++ ⟨a, z, .allocated⟩ :: back :=
    List.mem_append_right _ List.mem_cons_self
  have hroom := (h.tiling.sized _ hxMem).room (by simp)
  simp only [Block.stop] at hroom
  have hend : a + z ≤ 2 ^ 32 := (h.tiling.sized _ hxMem).1
  have hmid : Fills [⟨a, z, .allocated⟩] a (a + z) := ⟨by simp, rfl, rfl⟩
  rw [freeBefore_of_last hbefore] at hprevX
  have hprevX : prevfreeOf m a = 0 := hprevX
  have hsizeX : bsizeOf m a = -(z : Int) := hsizeX
  obtain ⟨nodes, hperm, hring⟩ := h.list
  have hmem := (hperm.cons freelist).subset
  obtain ⟨hlast, hlastNext⟩ := hring.prev_head
  have hapart : ∀ x ∈ freelist :: nodes, x + 16 ≤ a ∨ a + z ≤ x := fun x hx =>
    (h.tiling.node_apart (hmem hx) hxMem).resolve_left (by simp)
  have hhead := hapart freelist List.mem_cons_self
  have hlastX := hapart _ hlast
  have hheader := @header_withNode m freelist a a (by omega)
    (Or.inl (Nat.le_refl a)) (by omega) (by omega)
  have hlt := h.tiling.head_lt
  have hnew := ring_withNode hring (fun x hx y hy => h.tiling.nodes_apart (hmem hx) (hmem hy))
    (fun x hx => (hapart x hx).imp_right (Nat.le_trans hroom.1)) (by omega) (by omega)
  have hnewApart : ∀ x ∈ freelist :: (nodes ++ [a]), x = a ∨ x + 16 ≤ a ∨ a + z ≤ x := by
    intro x hx
    rw [← List.cons_append, List.mem_append, List.mem_singleton] at hx
    exact (hx.imp_left (hapart x)).symm
  simp only [brelPrev, returns_bind_iff, returns_prevfree]
  rw [if_neg (by simp [hprevX])]
  simp only [returns_bind_iff, returns_linkLast, returns_bsize, returns_setBsize, returns_pure_iff,
    hheader.2, hsizeX, Int.neg_neg]
  refine ⟨hlastNext, hring.next_head, trivial, hmid, ?_, ?_, ⟨nodes ++ [a], ?_, ?_⟩, ?_⟩
  · rw [bsizeOf_store (by omega) (by omega)]
    omega
  · rw [prevfreeOf_store_apart (by omega), hheader.1, hprevX]
  · rw [List.singleton_append, freeAddrs_append, freeAddrs_cons_of_ne (by simp),
      ← freeAddrs_append] at hperm
    exact (hperm.append_right [a]).trans List.perm_append_comm
  · refine ring_frame hnew fun x hx w hlo hhi => Bytes.store_apply_of_outside ?_
    have hx' := hnewApart x hx
    omega
  · have hnodes : nodes ⊆ freeAddrs (front ++ back) := by
      intro x hx
      have hx' := hperm.subset hx
      rwa [List.singleton_append, freeAddrs_append, freeAddrs_cons_of_ne (by simp),
        ← freeAddrs_append] at hx'
    refine @ChangedIn.trans _ _ _ _ (withNode m freelist a) _ ?_ (changedIn_store (by omega) (by omega))
    refine (changedIn_withNode hring (by omega) (by omega) (by omega)).mono (Nat.le_refl _) (Nat.le_refl _)
      fun y hy => Or.inl ?_
    exact List.cons_subset_cons _ hnodes hy

/-- The free block takes in the one behind it. -/
theorem brelNext_grows (h : WellFormed m freelist (front ++ (mid ++ y :: back))) (hmid : Fills mid a e)
    (hne : mid ≠ []) (he : a + 16 ≤ e) (haddr : y.addr = e) (hy : y.kind = .free)
    (ho : Opened m freelist front (y :: back) a e m') :
    Returns (brelNext a) m' fun r m'' => r = y.stop ∧ Opened m freelist front back a y.stop m'' := by
  obtain ⟨c, rest, rfl, hfollows⟩ := (List.append_assoc front mid (y :: back) ▸ h.tiling :
    Tiling freelist ((front ++ mid) ++ y :: back)).exists_next (by simp [hy])
  rw [Block.Follows, if_neg (by simp [hy])] at hfollows
  have hyMem : y ∈ front ++ (mid ++ y :: c :: rest) := by simp
  have hroom := (h.tiling.sized y hyMem).room (by simp [hy])
  have hcover : Fills (mid ++ [y]) a y.stop := hmid.append ⟨by simp [hy], haddr, rfl⟩
  have hlt := (List.append_assoc mid [y] (c :: rest) ▸ h.tiling :
    Tiling freelist (front ++ ((mid ++ [y]) ++ c :: rest))).length_lt hcover (by simp)
  obtain ⟨-, hrest⟩ := headers_append.mp h.headers
  obtain ⟨-, -, hsizeY, hprevC, -⟩ := headers_append.mp hrest
  simp only [Block.freeSize, Block.bsize, hy, if_true] at hsizeY hprevC
  have hheadY := ho.header h hmid hne List.mem_cons_self
  have hheadC := ho.header h hmid hne (List.mem_cons_of_mem y List.mem_cons_self)
  rw [haddr] at hheadY hsizeY
  rw [hfollows.1] at hheadC hprevC
  have hsizeY' := hheadY.2.trans hsizeY
  have hprevC' := hheadC.1.trans hprevC
  have hoffset : offset a ((e - a : Nat) : Int) = e := by
    unfold offset
    omega
  have hoffset' : offset e (y.size : Int) = y.stop := by
    unfold offset Block.stop
    omega
  obtain ⟨nodes, hperm, hring⟩ := ho.list
  have hyNode : y.addr ∈ nodes := hperm.symm.subset (by
    rw [freeAddrs_append, freeAddrs_cons_free hy]
    simp)
  rw [haddr] at hyNode
  obtain ⟨ns, ns', rfl⟩ := List.append_of_mem hyNode
  have hothers : (ns ++ ns').Perm (a :: freeAddrs (front ++ c :: rest)) := by
    rw [freeAddrs_append, freeAddrs_cons_free hy, haddr] at hperm
    have hperm' := List.perm_middle.symm.trans (hperm.trans ((List.perm_middle.cons a).trans
      (List.Perm.swap e a _)))
    rw [freeAddrs_append]
    exact hperm'.cons_inv
  have hout : ∀ x ∈ freelist :: freeAddrs (front ++ c :: rest), x + 16 ≤ a ∨ e ≤ x := fun x hx =>
    (h.tiling.outside hmid hne).2.2 x ((@freeAddrs_outer_subset _ _ [y] _ _) hx)
  have hapart : NodesApart (freelist :: (ns ++ e :: ns')) := by
    have hall := h.tiling.nodesApart hmid hne he
    exact fun x hx w hw => hall x ((hperm.cons freelist).subset hx) w ((hperm.cons freelist).subset hw)
  obtain ⟨hring', hlinks⟩ := ring_withoutNode hring hapart
  have hnode : ∀ x ∈ freelist :: (ns ++ ns'), (x = a ∨ x + 16 ≤ a ∨ e ≤ x) ∧
      (x + 16 ≤ e ∨ e + 16 ≤ x) := by
    intro x hx
    have hxMem : x ∈ freelist :: (ns ++ e :: ns') := Ring.mem_of_others hx
    have hxE := hapart x hxMem e (by simp)
    have hne' := hring.ne_of_others hx
    refine ⟨?_, by omega⟩
    rcases List.mem_cons.mp ((hothers.cons freelist).subset hx) with rfl | hx'
    · exact Or.inr (hout _ List.mem_cons_self)
    · rcases List.mem_cons.mp hx' with rfl | hx'
      · exact Or.inl rfl
      · exact Or.inr (hout x (List.mem_cons_of_mem _ hx'))
  have hheader : ∀ q, q = a ∨ q = e → prevfreeOf (withoutNode m' e) q = prevfreeOf m' q ∧
      bsizeOf (withoutNode m' e) q = bsizeOf m' q := by
    intro q hq
    refine header_frame (S := fun x => withoutNode m' e x = m' x) (fun x hlo hhi => ?_) fun _ hx => hx
    refine hlinks 0 0 x (Or.inr (Nat.zero_le x)) fun w hw => ?_
    have hw' := hnode w hw
    omega
  have hsum : ((e - a : Nat) : Int) + (y.size : Int) = ((y.stop - a : Nat) : Int) := by
    unfold Block.stop
    omega
  simp only [brelNext, returns_bind_iff, returns_bsize, ho.size, hoffset, hsizeY']
  rw [if_pos (by simp only [Block.stop] at hroom; omega)]
  simp only [returns_bind_iff, returns_bsize, returns_prevfree, returns_heapAssert, returns_setBsize,
    returns_unlink, returns_pure_iff, hsizeY', hoffset', hprevC', (hheader a (Or.inl rfl)).2,
    (hheader e (Or.inr rfl)).2, ho.size, hsum]
  have hsize : bsizeOf ((withoutNode m' e).store (a + 4) (BitVec.ofInt 32 ((y.stop - a : Nat) : Int))) a =
      ((y.stop - a : Nat) : Int) := bsizeOf_store (by omega) (by omega)
  have hstop : offset a ((y.stop - a : Nat) : Int) = y.stop := by
    simp only [Block.stop] at hroom ⊢
    unfold offset
    omega
  refine ⟨trivial, hring.neighbours.1.2, hring.neighbours.2.2, ?_, hsize, ?_, ⟨ns ++ ns', hothers, ?_⟩, ?_⟩
  · rw [hsize, hstop]
  · rw [prevfreeOf_store_apart (by omega), (hheader a (Or.inl rfl)).1, ho.prev]
  · refine ring_frame hring' fun x hx w hlo hhi => Bytes.store_apply_of_outside ?_
    have hx' := (hnode x hx).1
    omega
  · have hlinksY : y.addr + 16 ≤ y.stop := hroom.1
    have hfirst : ChangedIn a y.stop (freelist :: freeAddrs (front ++ c :: rest)) m m' := by
      refine ho.changedIn.mono (Nat.le_refl _) (by omega) fun x hx => ?_
      rw [freeAddrs_append, freeAddrs_cons_free hy, List.mem_cons, List.mem_append, List.mem_cons] at hx
      rw [freeAddrs_append, List.mem_cons, List.mem_append]
      rcases hx with hx | hx | rfl | hx
      · exact Or.inl (Or.inl hx)
      · exact Or.inl (Or.inr (Or.inl hx))
      · exact Or.inr (by omega)
      · exact Or.inl (Or.inr (Or.inr hx))
    have hsecond : ChangedIn a y.stop (freelist :: freeAddrs (front ++ c :: rest)) m' (withoutNode m' e) := by
      refine (hlinks a y.stop).mono (Nat.le_refl _) (Nat.le_refl _) fun x hx => ?_
      rcases List.mem_cons.mp ((hothers.cons freelist).subset hx) with rfl | hx'
      · exact Or.inl List.mem_cons_self
      · rcases List.mem_cons.mp hx' with rfl | hx'
        · exact Or.inr (by omega)
        · exact Or.inl (List.mem_cons_of_mem _ hx')
    exact (hfirst.trans hsecond).trans (changedIn_store (by omega) (by omega))

/-- The block behind is not free. -/
theorem brelNext_stays (h : WellFormed m freelist (front ++ (mid ++ y :: back))) (hmid : Fills mid a e)
    (hne : mid ≠ []) (haddr : y.addr = e) (hy : y.kind ≠ .free)
    (ho : Opened m freelist front (y :: back) a e m') :
    Returns (brelNext a) m' fun r m'' => r = e ∧ m'' = m' := by
  have hyMem : y ∈ front ++ (mid ++ y :: back) := by simp
  obtain ⟨-, hrest⟩ := headers_append.mp h.headers
  obtain ⟨-, -, hsizeY, -⟩ := headers_append.mp hrest
  have hneg := Block.bsize_neg hy (h.tiling.sized y hyMem).pos
  have hsizeY' := (ho.header h hmid hne List.mem_cons_self).2.trans hsizeY
  rw [haddr] at hsizeY'
  have hle := hmid.le
  have hoffset : offset a ((e - a : Nat) : Int) = e := by
    unfold offset
    omega
  simp only [brelNext, returns_bind_iff, returns_bsize, ho.size, hoffset, hsizeY']
  rw [if_neg (by omega)]
  exact returns_pure_iff.mpr ⟨rfl, rfl⟩


end Steps

section Brel

variable {m m' : Bytes} {freelist a z e : Nat} {front mid back : List Block} {c : Block} {buf : Word}

/-- The next block is told. -/
theorem Opened.told (ho : Opened m freelist front (c :: back) a e m')
    (h : WellFormed m freelist (front ++ (mid ++ c :: back))) (hmid : Fills mid a e) (hne : mid ≠ [])
    (he : a + 16 ≤ e) (hbefore : ∀ b ∈ front.getLast?, b.kind ≠ .free) (haddr : c.addr = e)
    (hc : c.kind ≠ .free) :
    Returns (brelLast a e) m' fun _ m'' =>
      WellFormed m'' freelist (front ++ ⟨a, e - a, .free⟩ :: c :: back) ∧
      ∀ b ∈ front ++ c :: back, b.kind = .allocated → b.SamePayload m m'' := by
  have hcMem : c ∈ front ++ (mid ++ c :: back) := by simp
  obtain ⟨-, hrest⟩ := headers_append.mp h.headers
  obtain ⟨-, -, hsizeC, -⟩ := headers_append.mp hrest
  have hneg := Block.bsize_neg hc (h.tiling.sized c hcMem).pos
  have hsizeC' := (ho.header h hmid hne List.mem_cons_self).2.trans hsizeC
  rw [haddr] at hsizeC'
  simp only [brelLast, returns_bind_iff, returns_bsize, returns_heapAssert, returns_setPrevfree, ho.size,
    hsizeC']
  exact ⟨hneg, ho.close h hmid hne he hbefore haddr hc⟩

/-- The second half of `brel`. -/
theorem Opened.finish (ho : Opened m freelist front back a e m')
    (h : WellFormed m freelist (front ++ (mid ++ back))) (hmid : Fills mid a e) (hne : mid ≠ [])
    (he : a + 16 ≤ e) (hbefore : ∀ b ∈ front.getLast?, b.kind ≠ .free) :
    Returns (brelNext a >>= brelLast a) m' fun _ m'' =>
      WellFormed m'' freelist (front ++ mergeNext a (e - a) back) ∧
      ∀ b ∈ front ++ back, b.kind = .allocated → b.SamePayload m m'' := by
  obtain ⟨y, back, rfl, haddr⟩ := h.tiling.next_of_covers hmid hne
  by_cases hy : y.kind = .free
  · have hcover : Fills (mid ++ [y]) a y.stop := hmid.append ⟨by simp [hy], haddr, rfl⟩
    have hassoc : front ++ (mid ++ y :: back) = front ++ ((mid ++ [y]) ++ back) := by simp
    have h' : WellFormed m freelist (front ++ ((mid ++ [y]) ++ back)) := hassoc ▸ h
    obtain ⟨c, rest, rfl, hcAddr⟩ := h'.tiling.next_of_covers hcover (by simp)
    have hc : c.kind ≠ .free := by
      have hfollows : y.Follows c := by
        have hchain := (List.append_assoc front mid (y :: c :: rest)).symm ▸ h.tiling.follows
        exact (List.isChain_append_cons_cons.mp hchain).2.1
      rw [Block.Follows, if_neg (by simp [hy])] at hfollows
      exact hfollows.2 hy
    have hsize : e - a + y.size = y.stop - a := by
      have hle := hmid.le
      unfold Block.stop
      omega
    refine returns_bind (brelNext_grows h hmid hne he haddr hy ho) ?_
    rintro _ m'' ⟨rfl, ho'⟩
    have hle : e ≤ y.stop := haddr ▸ Nat.le_add_right _ _
    refine (ho'.told h' hcover (by simp) (by omega) hbefore hcAddr hc).imp ?_
    rintro - m₃ ⟨hwell, hsame⟩
    rw [mergeNext, if_pos hy, hsize]
    refine ⟨hwell, fun b hb hkind => hsame b ?_ hkind⟩
    rcases List.mem_append.mp hb with hb | hb
    · exact List.mem_append_left _ hb
    · rcases List.mem_cons.mp hb with rfl | hb
      · rw [hy] at hkind
        cases hkind
      · exact List.mem_append_right _ hb
  · refine returns_bind (brelNext_stays h hmid hne haddr hy ho) ?_
    rintro _ _ ⟨rfl, rfl⟩
    rw [mergeNext, if_neg hy]
    exact ho.told h hmid hne he hbefore haddr hy

/-- A block that is released joins the free blocks beside it, and the others keep what is in them. -/
theorem brel_frees (h : WellFormed m freelist (front ++ ⟨a, z, .allocated⟩ :: back))
    (hbuf : buf.toNat = a + sizeofBhead) :
    Returns (brel freelist buf) m fun _ m' =>
      WellFormed m' freelist (release front a z back) ∧
      ∀ b ∈ front ++ back, b.kind = .allocated → b.SamePayload m m' := by
  have hxMem : (⟨a, z, .allocated⟩ : Block) ∈ front ++ ⟨a, z, .allocated⟩ :: back := by simp
  have hroom := (h.tiling.sized _ hxMem).room (by simp)
  simp only [Block.stop] at hroom
  obtain ⟨c, rest, rfl, hfollows⟩ := h.tiling.exists_next (by simp)
  rw [Block.Follows, if_neg (by simp)] at hfollows
  have hcAddr : c.addr = a + z := hfollows.1
  obtain ⟨-, -, hsizeX, hprevC, -⟩ := headers_append.mp h.headers
  have hsizeX : bsizeOf m a = -(z : Int) := hsizeX
  have hprevC : prevfreeOf m (a + z) = 0 := hcAddr ▸ hprevC
  have hb : buf.toNat - sizeofBhead = a := by rw [hbuf, Nat.add_sub_cancel]
  have hne : buf ≠ 0 := by
    rintro rfl
    simp [sizeofBhead] at hbuf
  have hoffset : offset a (z : Int) = a + z := rfl
  simp only [brel, hb]
  refine returns_bind_iff.mpr (returns_heapAssert.mpr ⟨hne, ?_⟩)
  simp only [returns_bind_iff (m := bsize _), returns_bsize, returns_bind_iff (m := heapAssert _),
    returns_heapAssert, returns_bind_iff (m := prevfree _), returns_prevfree, hsizeX, Int.neg_neg, hoffset]
  refine ⟨by omega, hprevC, ?_⟩
  by_cases hfront : ∃ p ∈ front.getLast?, p.kind = .free
  · obtain ⟨p, hlast, hp⟩ := hfront
    obtain ⟨hfrontNe, hlastEq⟩ := List.mem_getLast?_eq_getLast hlast
    obtain ⟨front, rfl⟩ : ∃ bs, front = bs ++ [p] :=
      ⟨front.dropLast, by rw [hlastEq, List.dropLast_append_getLast]⟩
    have hassoc : front ++ [p] ++ ⟨a, z, .allocated⟩ :: c :: rest =
        front ++ ([p, ⟨a, z, .allocated⟩] ++ c :: rest) := by simp
    have h' : WellFormed m freelist (front ++ ([p, ⟨a, z, .allocated⟩] ++ c :: rest)) := hassoc ▸ h
    refine returns_bind (brelPrev_grows h' hp) ?_
    rintro _ m' ⟨rfl, hmid, ho⟩
    have haddr : a = p.addr + p.size := hmid.2.2.2.1
    have hbefore : ∀ b ∈ front.getLast?, b.kind ≠ .free :=
      @Tiling.before_free _ _ (⟨a, z, .allocated⟩ :: c :: rest) _ h'.tiling hp
    refine (ho.finish h' hmid (by simp) (by omega) hbefore).imp ?_
    rintro - m'' ⟨hwell, hsame⟩
    have hrelease : release (front ++ [p]) a z (c :: rest) =
        front ++ mergeNext p.addr (a + z - p.addr) (c :: rest) := by
      rw [release, List.getLast?_concat]
      simp only [hp, if_true, List.dropLast_concat]
      rw [show p.size + z = a + z - p.addr by omega]
    rw [hrelease]
    refine ⟨hwell, fun b hb hkind => hsame b ?_ hkind⟩
    rw [List.append_assoc, List.mem_append, List.mem_append, List.mem_singleton] at hb
    rw [List.mem_append]
    rcases hb with hb | rfl | hb
    · exact Or.inl hb
    · rw [hp] at hkind
      cases hkind
    · exact Or.inr hb
  · have hbefore : ∀ b ∈ front.getLast?, b.kind ≠ .free := fun b hb hkind => hfront ⟨b, hb, hkind⟩
    have hrelease : release front a z (c :: rest) = front ++ mergeNext a z (c :: rest) := by
      rw [release]
      split
      · rename_i p hlast
        rw [if_neg (hbefore p hlast)]
      · rfl
    rw [hrelease]
    refine returns_bind (brelPrev_opens h hbefore) ?_
    rintro _ m' ⟨rfl, hmid, ho⟩
    refine (ho.finish h hmid (by simp) (by omega) hbefore).imp ?_
    rintro - m'' ⟨hwell, hsame⟩
    rw [Nat.add_sub_cancel_left] at hwell
    exact ⟨hwell, hsame⟩

end Brel

end SeCloak
