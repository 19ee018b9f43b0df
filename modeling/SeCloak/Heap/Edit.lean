import SeCloak.Heap.Bget
import SeCloak.Heap.Release

/-!
# Exchanging blocks of a heap

What an allocator does to a well-formed heap: it exchanges some blocks in a row for others that cover
the same addresses, says so in the header that follows, and changes links of the free list. If nothing
else changes, the heap is well-formed again and the other allocated blocks keep what is in them.
-/

namespace SeCloak
open Misc Code

/-! ## The blocks -/

/-- The blocks lie in a row from `a` to `e`. -/
def Fills : List Block → Nat → Nat → Prop
  | [], a, e => a = e
  | b :: bs, a, e => b.kind ≠ .sentinel ∧ b.addr = a ∧ Fills bs b.stop e

section Fills

variable {freelist a e n : Nat} {front mid mid' back bs : List Block} {b c : Block}

theorem Fills.le (h : Fills bs a e) : a ≤ e := by
  induction bs generalizing a with
  | nil => exact Nat.le_of_eq h
  | cons b bs ih =>
    obtain ⟨-, rfl, hrest⟩ := h
    exact Nat.le_trans (Nat.le_add_right _ _) (ih hrest)

theorem Fills.mem (h : Fills bs a e) (hb : b ∈ bs) : b.kind ≠ .sentinel ∧ a ≤ b.addr ∧ b.stop ≤ e := by
  induction bs generalizing a with
  | nil => cases hb
  | cons d bs ih =>
    obtain ⟨hkind, rfl, hrest⟩ := h
    rcases List.mem_cons.mp hb with rfl | hb
    · exact ⟨hkind, Nat.le_refl _, hrest.le⟩
    · obtain ⟨hb', hle, hstop⟩ := ih hrest hb
      exact ⟨hb', Nat.le_trans (Nat.le_add_right _ _) hle, hstop⟩

theorem Fills.head (h : Fills bs a e) (hb : b ∈ bs.head?) : b.addr = a := by
  cases bs with
  | nil => cases hb
  | cons d bs =>
    obtain rfl := Option.some.inj hb
    exact h.2.1

theorem Fills.last (h : Fills bs a e) (hb : b ∈ bs.getLast?) : b.stop = e := by
  induction bs generalizing a with
  | nil => cases hb
  | cons d bs ih =>
    cases bs with
    | nil =>
      obtain rfl := Option.some.inj hb
      exact h.2.2
    | cons d' bs => exact ih h.2.2 (by simpa using hb)

theorem Fills.append {bs' : List Block} {e' : Nat} (h : Fills bs a e) (h' : Fills bs' e e') :
    Fills (bs ++ bs') a e' := by
  induction bs generalizing a with
  | nil =>
    obtain rfl : a = e := h
    exact h'
  | cons b bs ih => exact ⟨h.1, h.2.1, ih h.2.2⟩

theorem Fills.poolLength (h : Fills bs a e) : SeCloak.poolLength n bs = n + (e - a) := by
  induction bs generalizing a n with
  | nil =>
    obtain rfl : a = e := h
    simp [SeCloak.poolLength]
  | cons d bs ih =>
    obtain ⟨hkind, rfl, hrest⟩ := h
    have hle := hrest.le
    simp only [Block.stop] at hrest hle
    rw [SeCloak.poolLength, if_neg hkind, ih hrest]
    omega

theorem Fills.short (h : Fills bs a e) (hne : bs ≠ []) : Short n bs ↔ n + (e - a) < 2 ^ 31 := by
  induction bs generalizing a n with
  | nil => exact absurd rfl hne
  | cons d bs ih =>
    obtain ⟨hkind, rfl, hrest⟩ := h
    have hle := hrest.le
    simp only [Block.stop] at hrest hle
    rw [Short, if_neg hkind, or_iff_right hkind]
    by_cases hbs : bs = []
    · subst hbs
      obtain rfl : d.addr + d.size = e := hrest
      simp [Short]
    · rw [ih hrest hbs]
      omega

/-- The head of the free list is on one side of all of them. -/
theorem Fills.apart (h : Fills bs a e)
    (hbs : ∀ b ∈ bs, freelist + 16 ≤ b.addr ∨ b.stop ≤ freelist) (hne : bs ≠ []) :
    freelist + 16 ≤ a ∨ e ≤ freelist := by
  induction bs generalizing a with
  | nil => exact absurd rfl hne
  | cons d bs ih =>
    obtain ⟨-, rfl, hrest⟩ := h
    obtain ⟨hd, hbs⟩ := List.forall_mem_cons.mp hbs
    by_cases hnil : bs = []
    · subst hnil
      obtain rfl : d.stop = e := hrest
      exact hd
    · have hstop := ih hrest hbs hnil
      omega

/-- Some blocks are exchanged for others between the same two addresses. -/
theorem Tiling.exchange (h : Tiling freelist (front ++ (mid ++ c :: back))) (hmid : Fills mid a e)
    (hmid' : Fills mid' a e) (hne : mid ≠ []) (hne' : mid' ≠ []) (hroom : ∀ b ∈ mid', 16 ≤ b.size)
    (hchain : mid'.IsChain Block.Follows)
    (hin : ∀ b ∈ front.getLast?, ∀ d ∈ mid'.head?, b.kind = .free → d.kind ≠ .free)
    (hout : ∀ b ∈ mid'.getLast?, b.kind = .free → c.kind ≠ .free) :
    Tiling freelist (front ++ (mid' ++ c :: back)) := by
  have hmem : ∀ b ∈ mid, b ∈ front ++ (mid ++ c :: back) := fun b hb =>
    List.mem_append_right _ (List.mem_append_left _ hb)
  obtain ⟨first, hfirst⟩ : ∃ b, mid.head? = some b := ⟨_, List.head?_eq_some_head hne⟩
  obtain ⟨last, hlast⟩ : ∃ b, mid.getLast? = some b := ⟨_, List.getLast?_eq_some_getLast hne⟩
  have hlastMem := List.mem_of_getLast? hlast
  have hfollows := h.follows
  rw [List.isChain_append, List.isChain_append] at hfollows
  obtain ⟨-, ⟨-, -, hseam'⟩, hseam⟩ := hfollows
  rw [List.head?_append_of_ne_nil _ hne] at hseam
  have hshort := (short_append.mp (short_append.mp h.short).2).1
  rw [hmid.short hne] at hshort
  have hend := (h.sized last (hmem last hlastMem)).1
  rw [hmid.last hlast] at hend
  refine h.replace (by simp) hne' (fun n hn => ?_) hchain ?_ ?_ ?_ ?_
  · rw [hmid.short hne] at hn
    rw [hmid'.short hne', hmid'.poolLength, hmid.poolLength]
    exact ⟨hn, rfl⟩
  · intro b hb d hd
    refine (hseam b hb first hfirst).congr_right ?_ (hin b hb d hd)
    rw [hmid'.head hd, hmid.head hfirst]
  · intro b hb d hd
    obtain rfl := Option.some.inj hd
    refine (hseam' last hlast c rfl).congr_left (hmid.mem hlastMem).1
      (hmid'.mem (List.mem_of_getLast? hb)).1 ?_ (hout b hb)
    rw [hmid'.last hb, hmid.last hlast]
  · intro b hb
    obtain ⟨hkind, hle, hstop⟩ := hmid'.mem hb
    have hsize := hroom b hb
    rw [Block.sized_iff hkind]
    simp only [Block.stop] at hstop ⊢
    omega
  · intro b hb
    obtain ⟨-, hle, hstop⟩ := hmid'.mem hb
    have hplace := hmid.apart (fun d hd => h.apart d (hmem d hd)) hne
    omega

end Fills

/-! ## The bytes -/

/-- Only the bytes from `lo` to `hi` and the links of the nodes differ. -/
def ChangedIn (lo hi : Nat) (nodes : List Nat) (m m' : Bytes) : Prop :=
  ∀ x, (x < lo ∨ hi ≤ x) → (∀ y ∈ nodes, x < y + 8 ∨ y + 16 ≤ x) → m' x = m x

section ChangedIn

variable {lo hi lo' hi' a : Nat} {nodes nodes' : List Nat} {m m' m'' : Bytes} {w : Word}

theorem ChangedIn.refl (lo hi : Nat) (nodes : List Nat) (m : Bytes) : ChangedIn lo hi nodes m m :=
  fun _ _ _ => rfl

theorem ChangedIn.trans (h : ChangedIn lo hi nodes m m') (h' : ChangedIn lo hi nodes m' m'') :
    ChangedIn lo hi nodes m m'' :=
  fun x hx hnodes => (h' x hx hnodes).trans (h x hx hnodes)

theorem ChangedIn.mono (h : ChangedIn lo hi nodes m m') (hlo : lo' ≤ lo) (hhi : hi ≤ hi')
    (hnodes : ∀ y ∈ nodes, y ∈ nodes' ∨ (lo' ≤ y + 8 ∧ y + 16 ≤ hi')) : ChangedIn lo' hi' nodes' m m' := by
  intro x hx hother
  refine h x (by omega) fun y hy => ?_
  rcases hnodes y hy with hy | hy
  · exact hother y hy
  · omega

/-- A word inside of the range. -/
theorem changedIn_store (hlo : lo ≤ a) (hhi : a + 4 ≤ hi) : ChangedIn lo hi nodes m (m.store a w) :=
  fun _ hx _ => Bytes.store_apply_of_outside (by omega)

/-- The forward link of a node. -/
theorem changedIn_storeFlink (h : a ∈ nodes) : ChangedIn lo hi nodes m (m.store (a + 8) w) := by
  intro x _ hnodes
  have hx := hnodes a h
  exact Bytes.store_apply_of_outside (by omega)

/-- The backward link of a node. -/
theorem changedIn_storeBlink (h : a ∈ nodes) : ChangedIn lo hi nodes m (m.store (a + 12) w) := by
  intro x _ hnodes
  have hx := hnodes a h
  exact Bytes.store_apply_of_outside (by omega)

end ChangedIn

section Edit

variable {m m' : Bytes} {freelist lo : Nat} {front mid mid' back : List Block} {c : Block}

/-- The nodes of the free list that are not in the middle. -/
theorem freeAddrs_outer_subset :
    freelist :: freeAddrs (front ++ c :: back) ⊆ freelist :: freeAddrs (front ++ (mid ++ c :: back)) := by
  refine List.cons_subset_cons _ fun x hx => ?_
  rw [freeAddrs_append] at hx
  rw [freeAddrs_append, freeAddrs_append]
  rcases List.mem_append.mp hx with hx | hx
  · exact List.mem_append_left _ hx
  · exact List.mem_append_right _ (List.mem_append_right _ hx)

theorem WellFormed.edit (h : WellFormed m freelist (front ++ (mid ++ c :: back)))
    (htiling : Tiling freelist (front ++ (mid' ++ c :: back))) (hlo : ∀ b ∈ front, b.stop ≤ lo)
    (hc : lo ≤ c.addr)
    (hsame : ChangedIn lo (c.addr + 4) (freelist :: freeAddrs (front ++ c :: back)) m m')
    (hmid : Headers m' (freeBefore 0 front) mid')
    (hprev : prevfreeOf m' c.addr = freeBefore (freeBefore 0 front) mid')
    (hlist : ∃ nodes, nodes.Perm (freeAddrs (front ++ (mid' ++ c :: back))) ∧
      Ring (flinkOf m') (blinkOf m') freelist nodes) :
    WellFormed m' freelist (front ++ (mid' ++ c :: back)) ∧
      ∀ b ∈ front ++ c :: back, b.kind = .allocated → b.SamePayload m m' := by
  obtain ⟨hfront, hrest⟩ := headers_append.mp h.headers
  obtain ⟨-, -, hsizeC, hback⟩ := headers_append.mp hrest
  have hin : ∀ b ∈ front ++ c :: back, b ∈ front ++ (mid ++ c :: back) := by
    intro b hb
    rcases List.mem_append.mp hb with hb | hb
    · exact List.mem_append_left _ hb
    · exact List.mem_append_right _ (List.mem_append_right _ hb)
  have hsplit := (List.append_assoc front mid (c :: back) ▸ h.tiling :
    Tiling freelist ((front ++ mid) ++ c :: back)).split
  have hcPos := (h.tiling.sized c (hin c (by simp))).pos
  -- a header outside of the middle is in no link, nor is the payload of an allocated block
  have hnode : ∀ b ∈ front ++ c :: back, ∀ y ∈ freelist :: freeAddrs (front ++ c :: back),
      (b.kind = .free ∧ y = b.addr) ∨ y + 16 ≤ b.addr ∨ b.stop ≤ y := fun b hb y hy =>
    h.tiling.node_apart (freeAddrs_outer_subset hy) (hin b hb)
  have hheader : ∀ b ∈ front ++ c :: back, ∀ x, b.addr ≤ x → x < b.addr + 8 →
      x < lo ∨ c.addr + 4 ≤ x → m' x = m x := by
    intro b hb x hx hx' hout
    have hpos := (h.tiling.sized b (hin b hb)).pos
    refine hsame x hout fun y hy => ?_
    have hyb := hnode b hb y hy
    omega
  have hfront' : Headers m' 0 front := by
    refine hfront.frame (S := fun x => m' x = m x) (fun b hb x hx hx' => ?_) fun _ hx => hx
    have hle := hlo b hb
    have hpos := (h.tiling.sized b (hin b (List.mem_append_left _ hb))).pos
    exact hheader b (List.mem_append_left _ hb) x hx hx' (by omega)
  have hback' : Headers m' c.freeSize back := by
    refine hback.frame (S := fun x => m' x = m x) (fun b hb x hx hx' => ?_) fun _ hx => hx
    have hle := hsplit.2 b hb
    exact hheader b (List.mem_append_right _ (List.mem_cons_of_mem _ hb)) x hx hx' (by omega)
  have hsizeC' : bsizeOf m' c.addr = c.bsize := by
    rw [← hsizeC, bsizeOf, bsizeOf]
    refine congrArg BitVec.toInt (Bytes.load_congr fun x hx hx' => ?_)
    exact hheader c (by simp) x (by omega) (by omega) (by omega)
  refine ⟨⟨htiling, ?_, hlist⟩, fun b hb hkind x hx hx' => ?_⟩
  · rw [headers_append, headers_append]
    exact ⟨hfront', hmid, hprev, hsizeC', hback'⟩
  · have hsizeof : sizeofBhead = 8 := rfl
    refine hsame x ?_ fun y hy => ?_
    · rcases List.mem_append.mp hb with hb | hb
      · have hle := hlo b hb
        omega
      · rcases List.mem_cons.mp hb with rfl | hb
        · omega
        · have hle := hsplit.2 b hb
          omega
    · have hyb := hnode b hb y hy
      rw [hkind] at hyb
      simp only [reduceCtorEq, false_and, false_or] at hyb
      omega

end Edit

/-! ## The free list -/

section Links

variable {m : Bytes} {freelist b lo hi : Nat} {front back nodes : List Nat} {Q : Unit → Bytes → Prop}

/-- No two nodes overlap. -/
def NodesApart (nodes : List Nat) : Prop :=
  ∀ x ∈ nodes, ∀ y ∈ nodes, x = y ∨ x + 16 ≤ y ∨ y + 16 ≤ x

/-- The memory with `b` taken out of the free list. -/
def withoutNode (m : Bytes) (b : Nat) : Bytes :=
  let m := m.store (blinkOf m b + 8) (BitVec.ofNat 32 (flinkOf m b))
  m.store (flinkOf m b + 12) (BitVec.ofNat 32 (blinkOf m b))

theorem returns_linkLast : Returns (linkLast freelist b) m Q ↔
    flinkOf m (blinkOf m freelist) = freelist ∧ blinkOf m (flinkOf m freelist) = freelist ∧
      Q () (withNode m freelist b) := by
  simp only [linkLast, returns_bind_iff, returns_heapAssert, returns_flink, returns_blink,
    returns_setFlink, returns_setBlink]
  rfl

theorem returns_unlink : Returns (unlink b) m Q ↔
    flinkOf m (blinkOf m b) = b ∧ blinkOf m (flinkOf m b) = b ∧ Q () (withoutNode m b) := by
  simp only [unlink, returns_bind_iff, returns_heapAssert, returns_flink, returns_blink,
    returns_setFlink, returns_setBlink]
  rfl

theorem withoutNode_eq (hapart : blinkOf m b + 16 ≤ b ∨ b + 16 ≤ blinkOf m b) :
    withoutNode m b = (m.store (blinkOf m b + 8) (BitVec.ofNat 32 (flinkOf m b))).store
      (flinkOf m b + 12) (BitVec.ofNat 32 (blinkOf m b)) := by
  have hflink : flinkOf (m.store (blinkOf m b + 8) (BitVec.ofNat 32 (flinkOf m b))) b = flinkOf m b :=
    flinkOf_store_apart (by omega)
  have hblink : blinkOf (m.store (blinkOf m b + 8) (BitVec.ofNat 32 (flinkOf m b))) b = blinkOf m b :=
    blinkOf_store_apart (by omega)
  rw [withoutNode, hflink, hblink]

/-- A node is taken out of the free list: only links of the other nodes change. -/
theorem ring_withoutNode (hring : Ring (flinkOf m) (blinkOf m) freelist (front ++ b :: back))
    (hapart : NodesApart (freelist :: (front ++ b :: back))) :
    Ring (flinkOf (withoutNode m b)) (blinkOf (withoutNode m b)) freelist (front ++ back) ∧
      ∀ lo hi, ChangedIn lo hi (freelist :: (front ++ back)) m (withoutNode m b) := by
  obtain ⟨hprevMem, hnextMem⟩ := hring.neighbours_mem
  have hbMem : b ∈ freelist :: (front ++ b :: back) := by simp
  have hprev := hapart _ (Ring.mem_of_others hprevMem) b hbMem
  have hnext := hapart _ (Ring.mem_of_others hnextMem) b hbMem
  have hprevNe := hring.ne_of_others hprevMem
  have hnextNe := hring.ne_of_others hnextMem
  have hseam := hapart _ (Ring.mem_of_others hprevMem) _ (Ring.mem_of_others hnextMem)
  rw [withoutNode_eq (by omega)]
  refine ⟨hring.remove ?_ ?_ ?_ ?_, fun lo hi =>
    (changedIn_storeFlink hprevMem).trans (changedIn_storeBlink hnextMem)⟩
  · rw [flinkOf_store_apart (by omega), flinkOf_store flinkOf_lt]
  · rw [blinkOf_store blinkOf_lt]
  · intro x hx hne
    have hxPrev := hapart x (Ring.mem_of_others hx) _ (Ring.mem_of_others hprevMem)
    have hxNext := hapart x (Ring.mem_of_others hx) _ (Ring.mem_of_others hnextMem)
    rw [flinkOf_store_apart (by omega), flinkOf_store_apart (by omega)]
  · intro x hx hne
    have hxPrev := hapart x (Ring.mem_of_others hx) _ (Ring.mem_of_others hprevMem)
    have hxNext := hapart x (Ring.mem_of_others hx) _ (Ring.mem_of_others hnextMem)
    rw [blinkOf_store_apart (by omega), blinkOf_store_apart (by omega)]

/-- A node is put at the end of the free list: only links of the head, of the last node and of the new
one change. -/
theorem changedIn_withNode (hring : Ring (flinkOf m) (blinkOf m) freelist nodes)
    (hb : b + 16 ≤ freelist ∨ freelist + 16 ≤ b) (hlo : lo ≤ b + 8) (hhi : b + 16 ≤ hi) :
    ChangedIn lo hi (freelist :: nodes) m (withNode m freelist b) := by
  rw [withNode_eq hb]
  exact (((changedIn_store (by omega) (by omega)).trans (changedIn_store (by omega) (by omega))).trans
    (changedIn_storeBlink List.mem_cons_self)).trans (changedIn_storeFlink hring.prev_head.1)

/-- The links are in none of the bytes that differ. -/
theorem ring_frame {m' : Bytes} (hring : Ring (flinkOf m) (blinkOf m) freelist nodes)
    (h : ∀ x ∈ freelist :: nodes, ∀ y, x + 8 ≤ y → y < x + 16 → m' y = m y) :
    Ring (flinkOf m') (blinkOf m') freelist nodes := by
  have hlinks : ∀ x ∈ freelist :: nodes, flinkOf m' x = flinkOf m x ∧ blinkOf m' x = blinkOf m x :=
    fun x hx => links_frame (S := fun y => m' y = m y) (h x hx) fun _ hy => hy
  exact hring.congr (fun x hx => (hlinks x hx).1) fun x hx => (hlinks x hx).2

end Links

end SeCloak
