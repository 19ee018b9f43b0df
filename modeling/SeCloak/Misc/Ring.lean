import Mathlib.Data.List.Chain
import Mathlib.Tactic.Common

/-!
# Circular lists through a head

A doubly linked circular list is a head and nodes that `next` and `prev` lead through, from the head
back to the head. The three edits are to put a node before the head, to put one in the place of
another and to take one out: each changes two links besides those of the node.
-/

namespace SeCloak.Misc

variable {ν : Type}

/-- Two nodes in a row. -/
def Linked (next prev : ν → ν) (x y : ν) : Prop := next x = y ∧ prev y = x

/-- The nodes in the order of `next`, starting behind the head. -/
structure Ring (next prev : ν → ν) (head : ν) (nodes : List ν) : Prop where
  nodup : (head :: nodes).Nodup
  linked : (head :: (nodes ++ [head])).IsChain (Linked next prev)

namespace Ring

variable {next prev next' prev' : ν → ν} {head o n x : ν} {nodes front back : List ν}

/-- The ring at the seam of its two ends. -/
theorem linked_iff : (head :: (nodes ++ [head])).IsChain (Linked next prev) ↔
    (head :: nodes).IsChain (Linked next prev) ∧
      ∀ x ∈ (head :: nodes).getLast?, Linked next prev x head := by
  rw [← List.cons_append, List.isChain_append]
  simp

/-- The ring at the two seams of one of its nodes. -/
theorem linked_split_iff :
    (head :: ((front ++ o :: back) ++ [head])).IsChain (Linked next prev) ↔
      ((head :: front).IsChain (Linked next prev) ∧
        ∀ x ∈ (head :: front).getLast?, Linked next prev x o) ∧
      (back ++ [head]).IsChain (Linked next prev) ∧
        ∀ y ∈ (back ++ [head]).head?, Linked next prev o y := by
  rw [List.append_assoc, List.cons_append, ← List.cons_append, List.isChain_append, and_assoc]
  refine and_congr_right fun _ => ?_
  rw [and_comm]
  refine and_congr (by simp) ?_
  rw [List.isChain_cons]
  exact and_comm

theorem exists_getLast? (head : ν) (front : List ν) : ∃ x, (head :: front).getLast? = some x ∧
    x ∈ head :: front :=
  ⟨_, List.getLast?_eq_some_getLast (List.cons_ne_nil _ _), List.getLast_mem _⟩

theorem exists_head? (head : ν) (back : List ν) : ∃ y, (back ++ [head]).head? = some y ∧
    y ∈ back ++ [head] := by
  cases back with
  | nil => exact ⟨head, rfl, List.mem_singleton_self head⟩
  | cons y back => exact ⟨y, rfl, List.mem_cons_self⟩

/-- The last node, or the head itself, is before the head. -/
theorem prev_head (h : Ring next prev head nodes) :
    prev head ∈ head :: nodes ∧ next (prev head) = head := by
  obtain ⟨x, hx, hmem⟩ := exists_getLast? head nodes
  obtain ⟨hnext, hprev⟩ := (linked_iff.mp h.linked).2 x hx
  rw [hprev]
  exact ⟨hmem, hnext⟩

theorem next_head (h : Ring next prev head nodes) : prev (next head) = head := by
  cases nodes with
  | nil =>
    obtain ⟨⟨hnext, hprev⟩, -⟩ := List.isChain_cons_cons.mp h.linked
    rw [hnext, hprev]
  | cons x nodes =>
    obtain ⟨⟨hnext, hprev⟩, -⟩ := List.isChain_cons_cons.mp h.linked
    rw [hnext, hprev]

/-- A node lies between its two neighbours, which are nodes or the head. -/
theorem neighbours (h : Ring next prev head (front ++ o :: back)) :
    (prev o ∈ head :: (front ++ o :: back) ∧ next (prev o) = o) ∧
      (next o ∈ head :: (front ++ o :: back) ∧ prev (next o) = o) := by
  obtain ⟨⟨-, hseam⟩, -, hseam'⟩ := linked_split_iff.mp h.linked
  obtain ⟨x, hx, hxmem⟩ := exists_getLast? head front
  obtain ⟨y, hy, hymem⟩ := exists_head? head back
  obtain ⟨hnext, hprev⟩ := hseam x hx
  obtain ⟨hnext', hprev'⟩ := hseam' y hy
  rw [hprev, hnext', ← List.cons_append]
  refine ⟨⟨List.mem_append_left _ hxmem, hnext⟩, ?_, hprev'⟩
  rcases List.mem_append.mp hymem with hback | hhead
  · exact List.mem_append_right _ (List.mem_cons_of_mem _ hback)
  · rw [List.mem_singleton.mp hhead]
    exact List.mem_append_left _ List.mem_cons_self

/-- The other nodes of a ring. -/
theorem mem_of_others (hx : x ∈ head :: (front ++ back)) : x ∈ head :: (front ++ o :: back) :=
  (((List.sublist_cons_self o back).append_left front).cons_cons head).subset hx

/-- The neighbours of a node are other nodes or the head. -/
theorem neighbours_mem (h : Ring next prev head (front ++ o :: back)) :
    prev o ∈ head :: (front ++ back) ∧ next o ∈ head :: (front ++ back) := by
  obtain ⟨⟨-, hseam⟩, -, hseam'⟩ := linked_split_iff.mp h.linked
  obtain ⟨x, hx, hxmem⟩ := exists_getLast? head front
  obtain ⟨y, hy, hymem⟩ := exists_head? head back
  rw [(hseam x hx).2, (hseam' y hy).1, ← List.cons_append]
  refine ⟨List.mem_append_left _ hxmem, ?_⟩
  rcases List.mem_append.mp hymem with hback | hhead
  · exact List.mem_append_right _ hback
  · rw [List.mem_singleton.mp hhead]
    exact List.mem_append_left _ List.mem_cons_self

/-- A node is not one of the others. -/
theorem ne_of_others (h : Ring next prev head (front ++ o :: back)) (hx : x ∈ head :: (front ++ back)) :
    x ≠ o := by
  rintro rfl
  have hperm : (head :: (front ++ x :: back)).Perm (x :: head :: (front ++ back)) :=
    (List.perm_middle.cons head).trans (List.Perm.swap x head _)
  exact (List.nodup_cons.mp (hperm.nodup_iff.mp h.nodup)).1 hx

/-- A ring is determined by the links of its nodes. -/
theorem congr (h : Ring next prev head nodes) (hnext : ∀ x ∈ head :: nodes, next' x = next x)
    (hprev : ∀ x ∈ head :: nodes, prev' x = prev x) : Ring next' prev' head nodes where
  nodup := h.nodup
  linked := by
    have hmem : ∀ x ∈ head :: (nodes ++ [head]), x ∈ head :: nodes := by
      intro x hx
      simp only [List.mem_cons, List.mem_append, List.not_mem_nil, or_false] at hx ⊢
      rcases hx with hx | hx | hx
      · exact Or.inl hx
      · exact Or.inr hx
      · exact Or.inl hx
    refine h.linked.imp_of_mem_imp fun x y hx hy hxy => ?_
    exact ⟨(hnext x (hmem x hx)).trans hxy.1, (hprev y (hmem y hy)).trans hxy.2⟩

/-- A node is put before the head. -/
theorem insert (h : Ring next prev head nodes) (hn : n ∉ head :: nodes)
    (hnext : next' n = head) (hprev : prev' n = prev head) (hlast : next' (prev head) = n)
    (hhead : prev' head = n) (hnext' : ∀ x ∈ head :: nodes, x ≠ prev head → next' x = next x)
    (hprev' : ∀ x ∈ nodes, prev' x = prev x) : Ring next' prev' head (nodes ++ [n]) where
  nodup := by
    rw [← List.cons_append, List.nodup_append]
    refine ⟨h.nodup, by simp, ?_⟩
    intro x hx y hy hxy
    rw [List.mem_singleton.mp hy] at hxy
    exact hn (hxy ▸ hx)
  linked := by
    obtain ⟨hchain, hseam⟩ := linked_iff.mp h.linked
    obtain ⟨x, hx, -⟩ := exists_getLast? head nodes
    have hhead_nodes : head ∉ nodes := (List.nodup_cons.mp h.nodup).1
    refine linked_split_iff.mpr ⟨⟨?_, ?_⟩, List.isChain_singleton head, ?_⟩
    · refine hchain.imp_of_mem_tail_imp fun x y hx hy hxy => ?_
      refine ⟨(hnext' x hx ?_).trans hxy.1, (hprev' y hy).trans hxy.2⟩
      rintro rfl
      exact hhead_nodes (h.prev_head.2.symm.trans hxy.1 ▸ hy)
    · intro y hy
      obtain ⟨-, hprevHead⟩ := hseam y hy
      rw [← hprevHead]
      exact ⟨hlast, hprev⟩
    · intro y hy
      obtain rfl := Option.some.inj hy
      exact ⟨hnext, hhead⟩

/-- A node is put in the place of another. -/
theorem replace (h : Ring next prev head (front ++ o :: back)) (hn : n ∉ head :: (front ++ o :: back))
    (hnext : next' n = next o) (hprev : prev' n = prev o) (hbefore : next' (prev o) = n)
    (hafter : prev' (next o) = n)
    (hnext' : ∀ x ∈ head :: (front ++ back), x ≠ prev o → next' x = next x)
    (hprev' : ∀ x ∈ head :: (front ++ back), x ≠ next o → prev' x = prev x) :
    Ring next' prev' head (front ++ n :: back) where
  nodup := by
    have hperm : ∀ x, (head :: (front ++ x :: back)).Perm (x :: head :: (front ++ back)) := fun x =>
      (List.perm_middle.cons head).trans (List.Perm.swap x head _)
    have hold := (hperm o).nodup_iff.mp h.nodup
    exact (hperm n).nodup_iff.mpr (List.nodup_cons.mpr ⟨fun hmem => hn (mem_of_others hmem),
      (List.nodup_cons.mp hold).2⟩)
  linked := by
    obtain ⟨⟨hfront, hseam⟩, hback, hseam'⟩ := linked_split_iff.mp h.linked
    obtain ⟨⟨-, hnextPrev⟩, -, hprevNext⟩ := h.neighbours
    have hnodup := h.nodup
    simp only [List.nodup_cons, List.nodup_append, List.mem_append, List.mem_cons, not_or] at hnodup
    have hofront : o ∉ head :: front := by
      simp only [List.mem_cons, not_or]
      exact ⟨fun h => hnodup.1.2.1 h.symm, fun h => hnodup.2.2.2 o h o (Or.inl rfl) rfl⟩
    have hoback : o ∉ back ++ [head] := by
      simp only [List.mem_append, List.mem_singleton, not_or]
      exact ⟨hnodup.2.2.1.1, fun h => hnodup.1.2.1 h.symm⟩
    have hmem : ∀ x ∈ back ++ [head], x ∈ head :: (front ++ back) := by
      intro x hx
      simp only [List.mem_append, List.mem_cons, List.not_mem_nil, or_false] at hx ⊢
      tauto
    refine linked_split_iff.mpr ⟨⟨?_, ?_⟩, ?_, ?_⟩
    · refine hfront.imp_of_mem_tail_imp fun x y hx hy hxy => ?_
      have hy' : y ∈ head :: front := List.mem_of_mem_tail hy
      have hin : ∀ z ∈ head :: front, z ∈ head :: (front ++ back) := by
        rw [← List.cons_append]
        exact fun z hz => List.mem_append_left _ hz
      refine ⟨(hnext' x (hin x hx) ?_).trans hxy.1, (hprev' y (hin y hy') ?_).trans hxy.2⟩
      · rintro rfl
        exact hofront (hnextPrev.symm.trans hxy.1 ▸ hy')
      · rintro rfl
        exact hofront (hprevNext.symm.trans hxy.2 ▸ hx)
    · intro x hx
      obtain ⟨-, hprevo⟩ := hseam x hx
      rw [← hprevo]
      exact ⟨hbefore, hprev⟩
    · refine hback.imp_of_mem_tail_imp fun x y hx hy hxy => ?_
      have hy' : y ∈ back ++ [head] := List.mem_of_mem_tail hy
      refine ⟨(hnext' x (hmem x hx) ?_).trans hxy.1, (hprev' y (hmem y hy') ?_).trans hxy.2⟩
      · rintro rfl
        exact hoback (hnextPrev.symm.trans hxy.1 ▸ hy')
      · rintro rfl
        exact hoback (hprevNext.symm.trans hxy.2 ▸ hx)
    · intro y hy
      obtain ⟨hnexto, -⟩ := hseam' y hy
      rw [← hnexto]
      exact ⟨hnext, hafter⟩

/-- A node is taken out. -/
theorem remove (h : Ring next prev head (front ++ o :: back)) (hbefore : next' (prev o) = next o)
    (hafter : prev' (next o) = prev o)
    (hnext' : ∀ x ∈ head :: (front ++ back), x ≠ prev o → next' x = next x)
    (hprev' : ∀ x ∈ head :: (front ++ back), x ≠ next o → prev' x = prev x) :
    Ring next' prev' head (front ++ back) where
  nodup := (((List.sublist_cons_self o back).append_left front).cons_cons head).nodup h.nodup
  linked := by
    obtain ⟨⟨hfront, hseam⟩, hback, hseam'⟩ := linked_split_iff.mp h.linked
    obtain ⟨⟨-, hnextPrev⟩, -, hprevNext⟩ := h.neighbours
    have hnodup := h.nodup
    simp only [List.nodup_cons, List.nodup_append, List.mem_append, List.mem_cons, not_or] at hnodup
    have hofront : o ∉ head :: front := by
      simp only [List.mem_cons, not_or]
      exact ⟨fun h => hnodup.1.2.1 h.symm, fun h => hnodup.2.2.2 o h o (Or.inl rfl) rfl⟩
    have hoback : o ∉ back ++ [head] := by
      simp only [List.mem_append, List.mem_singleton, not_or]
      exact ⟨hnodup.2.2.1.1, fun h => hnodup.1.2.1 h.symm⟩
    have hin : ∀ z ∈ head :: front, z ∈ head :: (front ++ back) := by
      rw [← List.cons_append]
      exact fun z hz => List.mem_append_left _ hz
    have hin' : ∀ z ∈ back ++ [head], z ∈ head :: (front ++ back) := by
      intro z hz
      rcases List.mem_append.mp hz with hz | hz
      · exact List.mem_cons_of_mem _ (List.mem_append_right _ hz)
      · rw [List.mem_singleton.mp hz]
        exact List.mem_cons_self
    rw [List.append_assoc, ← List.cons_append, List.isChain_append]
    refine ⟨?_, ?_, ?_⟩
    · refine hfront.imp_of_mem_tail_imp fun x y hx hy hxy => ?_
      have hy' : y ∈ head :: front := List.mem_of_mem_tail hy
      refine ⟨(hnext' x (hin x hx) ?_).trans hxy.1, (hprev' y (hin y hy') ?_).trans hxy.2⟩
      · rintro rfl
        exact hofront (hnextPrev.symm.trans hxy.1 ▸ hy')
      · rintro rfl
        exact hofront (hprevNext.symm.trans hxy.2 ▸ hx)
    · refine hback.imp_of_mem_tail_imp fun x y hx hy hxy => ?_
      have hy' : y ∈ back ++ [head] := List.mem_of_mem_tail hy
      refine ⟨(hnext' x (hin' x hx) ?_).trans hxy.1, (hprev' y (hin' y hy') ?_).trans hxy.2⟩
      · rintro rfl
        exact hoback (hnextPrev.symm.trans hxy.1 ▸ hy')
      · rintro rfl
        exact hoback (hprevNext.symm.trans hxy.2 ▸ hx)
    · intro x hx y hy
      obtain ⟨-, hprevo⟩ := hseam x hx
      obtain ⟨hnexto, -⟩ := hseam' y hy
      rw [← hprevo, ← hnexto]
      exact ⟨hbefore, hafter⟩

end Ring

end SeCloak.Misc
