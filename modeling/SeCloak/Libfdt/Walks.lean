import SeCloak.Libfdt.Flatten

/-!
# Walks over a tree

The structure block has the tokens of a tree. `fdt_for_each_subnode` gets exactly the subnodes of a node,
in their order; a search through the nodes finds the first one in the order of the structure block; and
`fdt_parent_offset` finds the node that a node is in.
-/

namespace SeCloak
open Misc

namespace Blob

variable {b : Blob} {o : Nat} {ts : List Token} {d : Int} {f : Forest} {r : Word}

/-! ## Subnodes -/

section Subnodes

/-- The loop of `fdt_next_subnode` in the loop of `fdt_next_node` at the offset `o`. -/
def nextSubnodeAt (b : Blob) (o : Nat) (depth : Int) (fuel : Nat) : Option Word :=
  (b.nextNodeFrom fuel (BitVec.ofNat 32 o) (some depth)).bind fun next =>
    if next.1.toInt < 0 ∨ next.2.getD 0 < 1 then some (-fdtErrNotfound)
    else if 1 < next.2.getD 0 then b.nextSubnodeFrom fuel next.1 (next.2.getD 0)
    else some next.1

theorem nextSubnodeFrom_node {name : CString} (hb : b.Placed) (h : b.At o (.beginNode name :: ts)) (fuel : Nat) :
    b.nextSubnodeFrom (fuel + 1) (BitVec.ofNat 32 o) d =
      b.nextSubnodeAt (o + (Token.beginNode name).size) d fuel := by
  rw [nextSubnodeFrom, h.nextNode hb, nextSubnodeAt]
  cases b.nextNodeFrom fuel (BitVec.ofNat 32 (o + (Token.beginNode name).size)) (some d) with
  | none => rfl
  | some next => rfl

theorem nextSubnodeAt_of_imp {o' : Nat} {d' : Int} (h : Ends (b.nextSubnodeAt o' d') r)
    (hskip : ∀ x, b.Next o' (some d') x → b.Next o (some d) x) : Ends (b.nextSubnodeAt o d) r :=
  h.bind_of_imp (fun _ _ => next_of_eq) hskip

/-- The nodes of a list that is deeper than the node that the loop started at are skipped. -/
theorem nextSubnodeAt_deeper (hb : b.Placed) (h : b.At o (f.tokens ++ ts)) (hd : 1 ≤ d)
    (hend : Ends (b.nextSubnodeAt (o + extent f.tokens) d) r) : Ends (b.nextSubnodeAt o d) r := by
  induction f generalizing o d ts with
  | nil => exact hend
  | nop rest ih =>
    rw [Forest.tokens, extent_cons, ← Nat.add_assoc] at hend
    exact nextSubnodeAt_of_imp (ih (h.cons hb).2 hd hend) fun x => next_nop hb h
  | node name props subnodes rest ihs ihr =>
    obtain ⟨hprops, hsub, hleave, hrest⟩ := h.node hb
    have hbegin : b.Next o (some d) (BitVec.ofNat 32 o, some (d + 1)) := next_begin hb h
    have hint := h.toInt hb
    -- the loop goes on at the node, one level deeper
    suffices hinner : Ends (b.nextSubnodeAt (o + (Token.beginNode name).size) (d + 1)) r by
      have hnode : Ends (fun fuel => b.nextSubnodeFrom fuel (BitVec.ofNat 32 o) (d + 1)) r :=
        hinner.round (nextSubnodeFrom_node hb h)
      refine hbegin.bind (hnode.congr fun fuel => ?_)
      dsimp only
      rw [Option.getD_some, if_neg (by omega), if_pos (by omega)]
    rw [extent_node] at hend
    have hafter := ihr hrest hd hend
    have hdown : Ends (b.nextSubnodeAt (Forest.subnodesAt o name props + extent subnodes.tokens) (d + 1)) r :=
      nextSubnodeAt_of_imp hafter fun x => next_leave hb hleave (by omega)
    exact nextSubnodeAt_of_imp (ihs hsub (by omega) hdown) fun x => next_props hb hprops

/-- The first one of a list of offsets, or the error at its end. -/
def firstOf : List Nat → Word
  | [] => -fdtErrNotfound
  | c :: _ => BitVec.ofNat 32 c

theorem At.root {c : Nat} {cs : List Nat} (hb : b.Placed) (h : b.At o (f.tokens ++ ts)) (hroots : f.roots o = c :: cs) :
    ∃ name us, b.At c (.beginNode name :: us) := by
  induction f generalizing o with
  | nil => cases hroots
  | nop rest ih => exact ih (h.cons hb).2 hroots
  | node name props subnodes rest =>
    obtain ⟨rfl, -⟩ := List.cons.inj hroots
    exact ⟨name, _, h⟩

/-- What the loop of `fdt_next_node` finds among the subnodes of a node. -/
theorem next_subnodes (hb : b.Placed) (h : b.At o (f.tokens ++ .endNode :: ts)) :
    (f.roots o = [] ∧ ∃ w, b.Next o (some 0) (w, some (-1))) ∨
      (∃ c cs, f.roots o = c :: cs ∧ 0 ≤ (BitVec.ofNat 32 c).toInt ∧
        b.Next o (some 0) (BitVec.ofNat 32 c, some 1)) := by
  obtain ⟨-, hend⟩ := h.append
  cases hroots : f.roots o with
  | nil => exact .inl ⟨rfl, _, next_empty hb h hroots (next_out hb hend)⟩
  | cons c cs =>
    obtain ⟨name, us, hc⟩ := h.root hb hroots
    have hint := hc.toInt hb
    exact .inr ⟨c, cs, rfl, by omega, next_forest hb h hroots⟩

theorem nextSubnodeAt_subnodes (hb : b.Placed) (h : b.At o (f.tokens ++ .endNode :: ts)) :
    Ends (b.nextSubnodeAt o 0) (firstOf (f.roots o)) := by
  rcases next_subnodes hb h with ⟨hroots, w, hx⟩ | ⟨c, cs, hroots, hpos, hx⟩
  · rw [hroots]
    refine hx.bind (ends_some.congr fun fuel => if_pos (.inr ?_))
    exact (by decide : (-1 : Int) < 1)
  · rw [hroots]
    refine hx.bind (ends_some.congr fun fuel => ?_)
    dsimp only [Option.getD_some]
    rw [if_neg (by omega), if_neg (by decide), firstOf]

/-- `fdt_next_subnode` at a subnode finds the one that follows it. -/
theorem nextSubnode_subnode {c : Nat} {cs : List Nat} (hb : b.Placed) (h : b.At o (f.tokens ++ .endNode :: ts))
    (hroots : f.roots o = c :: cs) : Ends (fun fuel => b.nextSubnode fuel (BitVec.ofNat 32 c)) (firstOf cs) := by
  induction f generalizing o with
  | nil => cases hroots
  | nop rest ih => exact ih (h.cons hb).2 hroots
  | node name props subnodes rest =>
    obtain ⟨rfl, rfl⟩ := List.cons.inj hroots
    obtain ⟨hprops, hsub, hleave, hrest⟩ := h.node hb
    have hfound := nextSubnodeAt_subnodes hb hrest
    have hdown : Ends (b.nextSubnodeAt (Forest.subnodesAt o name props + extent subnodes.tokens) (0 + 1))
        (firstOf (rest.roots (Forest.restAt o name props subnodes))) :=
      nextSubnodeAt_of_imp hfound fun x => next_leave hb hleave (by decide)
    have hdeeper := nextSubnodeAt_deeper hb hsub (by decide) hdown
    have hnode := nextSubnodeAt_of_imp hdeeper fun x => next_props hb hprops
    exact hnode.round (nextSubnodeFrom_node hb h)

theorem subnodesFrom_roots (hb : b.Placed) (h : b.At o (f.tokens ++ .endNode :: ts)) :
    Ends (fun fuel => b.subnodesFrom fuel (firstOf (f.roots o))) ((f.roots o).map (BitVec.ofNat 32)) := by
  induction f generalizing o with
  | nil =>
    have hneg : (-fdtErrNotfound).toInt < 0 := by decide
    exact ends_some.round fun fuel => if_pos hneg
  | nop rest ih => exact ih (h.cons hb).2
  | node name props subnodes rest ihs ihr =>
    obtain ⟨-, -, -, hrest⟩ := h.node hb
    have hnext := nextSubnode_subnode hb h rfl
    have hint := h.toInt hb
    have htail := (ihr hrest).map (BitVec.ofNat 32 o :: ·)
    refine Ends.round (Ends.bind (k := fun next fuel => (b.subnodesFrom fuel next).map (BitVec.ofNat 32 o :: ·))
      hnext htail) fun fuel => ?_
    rw [Forest.roots, firstOf, subnodesFrom, if_neg (by omega)]

/-- A loop over the subnodes of a node gets exactly its subnodes, in their order. -/
theorem forEachSubnode_node {t : DeviceTree} {names : Word → CString} {n : Node} (h : b.Represents t names)
    (hn : n ∈ t.nodes) : Ends (fun fuel => b.forEachSubnode fuel (BitVec.ofNat 32 n.offset))
      ((n.subnodes.roots (Forest.subnodesAt n.offset n.name n.props)).map (BitVec.ofNat 32)) := by
  have hb := h.placed
  obtain ⟨us, hnode⟩ := h.tokens.mem hb hn
  obtain ⟨hprops, hsub, -, -⟩ := hnode.node hb
  have hfirst : Ends (fun fuel => b.firstSubnode fuel (BitVec.ofNat 32 n.offset))
      (firstOf (n.subnodes.roots (Forest.subnodesAt n.offset n.name n.props))) := by
    have hstart : ∀ fuel, b.firstSubnode fuel (BitVec.ofNat 32 n.offset) =
        (b.nextNodeFrom fuel (BitVec.ofNat 32 (n.offset + (Token.beginNode n.name).size)) (some 0)).map
          fun next => if next.1.toInt < 0 ∨ next.2 ≠ some 1 then -fdtErrNotfound else next.1 := by
      intro fuel
      rw [firstSubnode, hnode.nextNode hb]
    rcases next_subnodes hb hsub with ⟨hroots, w, hx⟩ | ⟨c, cs, hroots, hpos, hx⟩
    · have hend := (next_props hb hprops hx).map
        fun next => if next.1.toInt < 0 ∨ next.2 ≠ some 1 then -fdtErrNotfound else next.1
      rw [if_pos (.inr (by simp))] at hend
      rw [hroots]
      exact hend.congr hstart
    · have hend := (next_props hb hprops hx).map
        fun next => if next.1.toInt < 0 ∨ next.2 ≠ some 1 then -fdtErrNotfound else next.1
      rw [if_neg (by simp; omega)] at hend
      rw [hroots]
      exact hend.congr hstart
  exact hfirst.bind (subnodesFrom_roots hb hsub)

end Subnodes

/-! ## Searches -/

section Search

variable {found : Nat → Word → Option (Option Word)} {want : Node → Option Word} {path : List Nat}

/-- A search in the loop of `fdt_next_node` at the offset `o`. -/
def findAt (b : Blob) (found : Nat → Word → Option (Option Word)) (o : Nat) (fuel : Nat) : Option Word :=
  (b.nextNodeFrom fuel (BitVec.ofNat 32 o) none).bind fun next => b.findNode found fuel next.1

theorem findAt_of_imp {o' : Nat} (h : Ends (b.findAt found o') r) (hskip : ∀ x, b.Next o' none x → b.Next o none x) :
    Ends (b.findAt found o) r :=
  h.bind_of_imp (fun _ _ => next_of_eq) hskip

/-- What a search does at a node, with what it finds there. -/
def findStep (b : Blob) (found : Nat → Word → Option (Option Word)) (o : Nat) (result : Option Word) (fuel : Nat) :
    Option Word :=
  match result with
  | some r => some r
  | none => b.findAt found o fuel

theorem findNode_node {name : CString} (hb : b.Placed) (h : b.At o (.beginNode name :: ts)) (fuel : Nat) :
    b.findNode found (fuel + 1) (BitVec.ofNat 32 o) = (found fuel (BitVec.ofNat 32 o)).bind fun result =>
      b.findStep found (o + (Token.beginNode name).size) result fuel := by
  have hint := h.toInt hb
  rw [findNode, if_neg (by omega), h.nextNode hb]
  rfl

/-- A search through a list of nodes and all nodes in them. -/
theorem findAt_nodes (hb : b.Placed) (h : b.At o (f.tokens ++ ts))
    (hfound : ∀ n ∈ f.nodes o path, Ends (fun fuel => found fuel (BitVec.ofNat 32 n.offset)) (want n))
    (hend : Ends (b.findAt found (o + extent f.tokens)) r) :
    Ends (b.findAt found o) (((f.nodes o path).findSome? want).getD r) := by
  induction f generalizing o ts r path with
  | nil => exact hend
  | nop rest ih =>
    rw [Forest.tokens, extent_cons, ← Nat.add_assoc] at hend
    exact findAt_of_imp (ih (h.cons hb).2 hfound hend) fun x => next_nop hb h
  | node name props subnodes rest ihs ihr =>
    obtain ⟨hprops, hsub, hleave, hrest⟩ := h.node hb
    have hbegin : b.Next o none (BitVec.ofNat 32 o, none) := next_begin hb h
    have hhere := hfound ⟨o, path, name, props, subnodes⟩ List.mem_cons_self
    rw [extent_node] at hend
    rw [Forest.nodes, List.findSome?_cons]
    refine hbegin.bind (Ends.round (Ends.bind (k := b.findStep found _) hhere ?_) (findNode_node hb h))
    cases hwant : want ⟨o, path, name, props, subnodes⟩ with
    | some r' => exact ends_some
    | none =>
      -- the subnodes come next, and behind the end of the node the rest of the list
      have hfoundRest : ∀ n ∈ rest.nodes (Forest.restAt o name props subnodes) path,
          Ends (fun fuel => found fuel (BitVec.ofNat 32 n.offset)) (want n) :=
        fun n hn => hfound n (by simp [Forest.nodes, hn])
      have hbehind := ihr hrest hfoundRest hend
      have hleft : Ends (b.findAt found (Forest.subnodesAt o name props + extent subnodes.tokens)) _ :=
        findAt_of_imp hbehind fun x => next_leave_none hb hleave
      have hfoundSub : ∀ n ∈ subnodes.nodes (Forest.subnodesAt o name props) (path ++ [o]),
          Ends (fun fuel => found fuel (BitVec.ofNat 32 n.offset)) (want n) :=
        fun n hn => hfound n (by simp [Forest.nodes, hn])
      have hdown := ihs hsub hfoundSub hleft
      have hnode := findAt_of_imp hdown fun x => next_props hb hprops
      rw [← Option.getD_or, ← List.findSome?_append] at hnode
      exact hnode

/-- A search from the start of the structure block. -/
theorem findAt_tree (found : Nat → Word → Option (Option Word)) (want : Node → Option Word) {t : DeviceTree}
    {names : Word → CString} (h : b.Represents t names)
    (hfound : ∀ n ∈ t.nodes, Ends (fun fuel => found fuel (BitVec.ofNat 32 n.offset)) (want n)) :
    Ends (fun fuel => (b.nextNode fuel (-1) none).bind fun next => b.findNode found fuel next.1)
      ((t.nodes.findSome? want).getD (-fdtErrNotfound)) := by
  have hend : Ends (b.findAt found (0 + extent t.forest.tokens)) (-fdtErrNotfound) := by
    have hnext : b.Next (0 + extent t.forest.tokens) none (-fdtErrNotfound, none) :=
      next_end h.placed h.tokens.append.2
    refine hnext.bind (ends_some.round fun fuel => ?_)
    rw [findNode, if_pos (by decide)]
  refine (findAt_nodes h.placed h.tokens hfound hend).congr fun fuel => ?_
  rw [findAt, nextNode, if_neg (by decide)]
  rfl

end Search

/-! ## Supernodes -/

section Supernode

variable {path : List Nat} {k t : Nat} {super : Word} {n : Node} {x : Word × Option Int}

theorem offset_of_mem (hn : n ∈ f.nodes o path) : o ≤ n.offset ∧ n.offset + 4 ≤ o + extent f.tokens := by
  induction f generalizing o path with
  | nil => cases hn
  | nop rest ih =>
    have hin := ih hn
    simp only [Forest.tokens, extent_cons, Token.size]
    omega
  | node name props subnodes rest ihs ihr =>
    rw [extent_node]
    rw [Forest.nodes, List.mem_cons, List.mem_append] at hn
    rcases hn with rfl | hn | hn
    · simp only [Forest.restAt, Forest.subnodesAt, Token.size]
      omega
    · have hin := ihs hn
      simp only [Forest.restAt, Forest.subnodesAt] at hin ⊢
      omega
    · have hin := ihr hn
      simp only [Forest.restAt, Forest.subnodesAt] at hin ⊢
      omega

theorem path_of_mem (hn : n ∈ f.nodes o path) : path <+: n.path := by
  induction f generalizing o path with
  | nil => cases hn
  | nop rest ih => exact ih hn
  | node name props subnodes rest ihs ihr =>
    rw [Forest.nodes, List.mem_cons, List.mem_append] at hn
    rcases hn with rfl | hn | hn
    · exact List.prefix_refl path
    · exact (List.prefix_append path [o]).trans (ihs hn)
    · exact ihr hn

/-- The loop of `fdt_supernode_atdepth_offset` in the loop of `fdt_next_node` at the offset `o`. -/
def superAt (b : Blob) (t k o : Nat) (depth : Int) (super : Word) (fuel : Nat) : Option (Word × Option Int) :=
  (b.nextNodeFrom fuel (BitVec.ofNat 32 o) (some depth)).bind fun next =>
    b.supernodeFrom (BitVec.ofNat 32 t) k fuel next.1 (next.2.getD 0) super

theorem superAt_of_imp {o' : Nat} {d' : Int} (h : Ends (b.superAt t k o' d' super) x)
    (hskip : ∀ y, b.Next o' (some d') y → b.Next o (some d) y) : Ends (b.superAt t k o d super) x :=
  h.bind_of_imp (fun _ _ => next_of_eq) hskip

/-- The offset of a supernode after the node at `o` with the depth `d`. -/
def superStep (k o : Nat) (d : Int) (super : Word) : Word := if d = k then BitVec.ofNat 32 o else super

theorem supernodeFrom_before {name : CString} (hb : b.Placed) (h : b.At o (.beginNode name :: ts)) (ht : t < 2 ^ 31)
    (hlt : o < t)
    (hnode : Ends (b.superAt t k (o + (Token.beginNode name).size) d (superStep k o d super)) x) :
    Ends (fun fuel => b.supernodeFrom (BitVec.ofNat 32 t) k fuel (BitVec.ofNat 32 o) d super) x := by
  have hint := h.toInt hb
  have htn : (BitVec.ofNat 32 t).toNat = t := Nat.mod_eq_of_lt (by omega)
  have hon : (BitVec.ofNat 32 o).toNat = o := Nat.mod_eq_of_lt (by omega)
  have htint : (BitVec.ofNat 32 t).toInt = t := by
    rw [BitVec.toInt_eq_toNat_of_lt (by omega), htn]
  refine hnode.round fun fuel => ?_
  rw [supernodeFrom, if_pos (by omega), h.nextNode hb]
  dsimp only
  rw [if_neg]
  · rfl
  · intro heq
    have hval := congrArg BitVec.toNat heq
    omega

theorem supernodeFrom_here {name : CString} (super : Word) (hb : b.Placed) (h : b.At o (.beginNode name :: ts)) :
    Ends (fun fuel => b.supernodeFrom (BitVec.ofNat 32 o) k fuel (BitVec.ofNat 32 o) d super)
      (if (k : Int) > d then -fdtErrNotfound else superStep k o d super, some d) := by
  have hint := h.toInt hb
  refine ends_some.round fun fuel => ?_
  rw [supernodeFrom, if_pos (by omega)]
  exact if_pos rfl

/-- The nodes of a list before the one that is looked for. -/
theorem superAt_before (super : Word) (hb : b.Placed) (h : b.At o (f.tokens ++ ts)) (ht : t < 2 ^ 31) (hd : 0 ≤ d)
    (hlt : o + extent f.tokens ≤ t) : ∃ super', (k ≤ d → super' = super) ∧
      ∀ x, Ends (b.superAt t k (o + extent f.tokens) d super') x → Ends (b.superAt t k o d super) x := by
  induction f generalizing o d ts super with
  | nil => exact ⟨super, fun _ => rfl, fun x hx => hx⟩
  | nop rest ih =>
    rw [Forest.tokens, extent_cons, ← Nat.add_assoc] at hlt ⊢
    obtain ⟨super', hsame, hrest⟩ := ih super (h.cons hb).2 hd hlt
    exact ⟨super', hsame, fun x hx => superAt_of_imp (hrest x hx) fun y => next_nop hb h⟩
  | node name props subnodes rest ihs ihr =>
    obtain ⟨hprops, hsub, hleave, hrest⟩ := h.node hb
    have hbegin : b.Next o (some d) (BitVec.ofNat 32 o, some (d + 1)) := next_begin hb h
    rw [extent_node] at hlt ⊢
    have hbounds : Forest.subnodesAt o name props + extent subnodes.tokens + 4 =
        Forest.restAt o name props subnodes := rfl
    have hover : o < Forest.subnodesAt o name props := by
      simp only [Forest.subnodesAt, Token.size]
      omega
    obtain ⟨inner, hinner, hsubs⟩ := ihs (superStep k o (d + 1) super) hsub (by omega : 0 ≤ d + 1) (by omega)
    obtain ⟨super', hsame, hafter⟩ := ihr inner hrest hd hlt
    refine ⟨super', fun hk => ?_, fun x hx => ?_⟩
    · rw [hsame hk, hinner (by omega), superStep, if_neg (by omega)]
    · have hleft := superAt_of_imp (hafter x hx) fun y => next_leave hb hleave hd
      have hnode := superAt_of_imp (hsubs x hleft) fun y => next_props hb hprops
      exact hbegin.bind (supernodeFrom_before hb h ht (by omega) hnode)

/-- The offset of the supernode, once the loop is in it. -/
def SuperFound (path : List Nat) (k : Nat) (super : Word) : Prop := ∀ a, path[k]? = some a → super = BitVec.ofNat 32 a

theorem superFound_step (hfound : SuperFound path k super) (hd : d = path.length) :
    SuperFound (path ++ [o]) k (superStep k o d super) := by
  intro a ha
  rw [superStep]
  rcases Nat.lt_trichotomy k path.length with hk | hk | hk
  · rw [List.getElem?_append_left hk] at ha
    rw [if_neg (by omega)]
    exact hfound a ha
  · subst hk
    rw [List.getElem?_concat_length] at ha
    rw [if_pos hd, Option.some.inj ha]
  · rw [List.getElem?_eq_none (by simp; omega)] at ha
    cases ha

theorem supernodeFrom_found {name : CString} {props : List (Option (Word × List Byte))} {subnodes : Forest}
    (hb : b.Placed) (h : b.At o (.beginNode name :: ts)) (hfound : SuperFound path k super) (hd : d = path.length) :
    Ends (fun fuel => b.supernodeFrom (BitVec.ofNat 32 o) k fuel (BitVec.ofNat 32 o) d super)
      (Node.above ⟨o, path, name, props, subnodes⟩ k, some (path.length : Int)) := by
  have hhere := supernodeFrom_here (k := k) (d := d) super hb h
  have hstep := superFound_step (o := o) hfound hd
  have habove : Node.above ⟨o, path, name, props, subnodes⟩ k =
      if (k : Int) > d then -fdtErrNotfound else superStep k o d super := by
    rw [Node.above]
    split
    · rw [List.getElem?_eq_none (by simp; omega)]
      rfl
    · have hk : k < (path ++ [o]).length := by
        rw [List.length_append, List.length_singleton]
        omega
      rw [hstep _ (List.getElem?_eq_getElem hk), List.getElem?_eq_getElem hk]
      rfl
  rw [habove, ← hd]
  exact hhere

/-- The loop gets to a node of the list, and knows the nodes that it is in. -/
theorem superAt_inside (hb : b.Placed) (h : b.At o (f.tokens ++ ts)) (hn : n ∈ f.nodes o path)
    (ht : n.offset < 2 ^ 31) (hd : 0 ≤ d) (hpath : d + 1 = path.length) (hfound : SuperFound path k super) :
    Ends (b.superAt n.offset k o d super) (n.above k, some (n.path.length : Int)) := by
  induction f generalizing o d ts super path with
  | nil => cases hn
  | nop rest ih => exact superAt_of_imp (ih (h.cons hb).2 hn hd hpath hfound) fun y => next_nop hb h
  | node name props subnodes rest ihs ihr =>
    obtain ⟨hprops, hsub, hleave, hrest⟩ := h.node hb
    have hbegin : b.Next o (some d) (BitVec.ofNat 32 o, some (d + 1)) := next_begin hb h
    have hover : o < Forest.subnodesAt o name props ∧
        Forest.subnodesAt o name props ≤ Forest.restAt o name props subnodes := by
      simp only [Forest.restAt, Forest.subnodesAt, Token.size]
      omega
    have hstep : SuperFound (path ++ [o]) k (superStep k o (d + 1) super) := superFound_step hfound hpath
    rw [Forest.nodes, List.mem_cons, List.mem_append] at hn
    rcases hn with rfl | hn | hn
    · exact hbegin.bind (supernodeFrom_found hb h hfound hpath)
    · have hin := offset_of_mem hn
      have hfoundAt := ihs hsub hn (by omega : 0 ≤ d + 1) (by simp; omega) hstep
      have hnode := superAt_of_imp hfoundAt fun y => next_props hb hprops
      exact hbegin.bind (supernodeFrom_before hb h ht (by omega) hnode)
    · have hin := offset_of_mem hn
      have hbounds : Forest.subnodesAt o name props + extent subnodes.tokens + 4 =
          Forest.restAt o name props subnodes := rfl
      obtain ⟨inner, hinner, hsubs⟩ := superAt_before (k := k)
        (superStep k o (d + 1) super) hb hsub ht (by omega : 0 ≤ d + 1) (by omega)
      have hsame : SuperFound path k inner := by
        intro a ha
        have hk := (List.getElem?_eq_some_iff.mp ha).1
        rw [hinner (by omega), superStep, if_neg (by omega)]
        exact hfound a ha
      have hleft := superAt_of_imp (ihr hrest hn hd hpath hsame) fun y => next_leave hb hleave hd
      have hnode := superAt_of_imp (hsubs _ hleft) fun y => next_props hb hprops
      exact hbegin.bind (supernodeFrom_before hb h ht (by omega) hnode)

variable {tree : DeviceTree} {names : Word → CString}

/-- `fdt_supernode_atdepth_offset` at a node of a tree. -/
theorem supernodeAtdepthOffset_node (h : b.Represents tree names) (hn : n ∈ tree.nodes) :
    Ends (fun fuel => b.supernodeAtdepthOffset fuel (BitVec.ofNat 32 n.offset) k)
      (n.above k, some (n.path.length : Int)) := by
  have hb := h.placed
  obtain ⟨hprops, hsub, -, -⟩ := h.tokens.node hb
  have hsize := hb.size
  have hstart : ∀ fuel, b.supernodeAtdepthOffset fuel (BitVec.ofNat 32 n.offset) k =
      b.supernodeFrom (BitVec.ofNat 32 n.offset) k fuel (BitVec.ofNat 32 0) 0 (-fdtErrInternal) := by
    intro fuel
    rw [supernodeAtdepthOffset, if_neg (by simp [h.header]), if_neg (by omega)]
    rfl
  have hfound : SuperFound [] k (-fdtErrInternal) := by
    intro a ha
    cases ha
  refine Ends.congr ?_ hstart
  rw [DeviceTree.nodes, DeviceTree.forest, Forest.nodes, List.mem_cons, List.mem_append] at hn
  rcases hn with rfl | hn | hn
  · exact supernodeFrom_found hb h.tokens hfound rfl
  · have hin := offset_of_mem hn
    have hle := hsub.append.1.le
    have hover : 0 < Forest.subnodesAt 0 tree.name tree.props := by
      simp only [Forest.subnodesAt, Token.size]
      omega
    have hinside := superAt_inside hb hsub hn (by omega) (Int.le_refl 0) rfl (superFound_step hfound rfl)
    exact supernodeFrom_before hb h.tokens (by omega) (by omega) (superAt_of_imp hinside fun y => next_props hb hprops)
  · cases hn

theorem head_of_mem (hn : n ∈ tree.nodes) : n.above 0 = 0 := by
  rw [DeviceTree.nodes, DeviceTree.forest, Forest.nodes, List.mem_cons, List.mem_append] at hn
  rcases hn with rfl | hn | hn
  · rfl
  · obtain ⟨more, hmore⟩ := path_of_mem hn
    rw [Node.above, ← hmore]
    rfl
  · cases hn

/-- `fdt_node_depth` at a node of a tree. -/
theorem nodeDepth_node (h : b.Represents tree names) (hn : n ∈ tree.nodes) :
    Ends (fun fuel => b.nodeDepth fuel (BitVec.ofNat 32 n.offset)) (n.path.length : Int) := by
  have hend := (supernodeAtdepthOffset_node (k := 0) h hn).map fun r =>
    if r.1 ≠ 0 then (if r.1.toInt < 0 then r.1.toInt else (-fdtErrInternal).toInt) else r.2.getD 0
  rw [head_of_mem hn] at hend
  exact hend

/-- `fdt_parent_offset` finds the node that a node of a tree is in. -/
theorem parentOffset_node (h : b.Represents tree names) (hn : n ∈ tree.nodes) :
    Ends (fun fuel => b.parentOffset fuel (BitVec.ofNat 32 n.offset))
      ((n.path.getLast?.map (BitVec.ofNat 32)).getD (-fdtErrNotfound)) := by
  have hdepth := nodeDepth_node h hn
  refine hdepth.bind (k := fun nodedepth fuel => if nodedepth < 0 then some (BitVec.ofInt 32 nodedepth)
    else (b.supernodeAtdepthOffset fuel (BitVec.ofNat 32 n.offset) (nodedepth - 1)).map Prod.fst) ?_
  rcases Nat.eq_zero_or_pos n.path.length with hroot | hdeep
  · rw [List.length_eq_zero_iff] at hroot
    rw [hroot]
    refine ends_some.congr fun fuel => ?_
    rw [if_neg (by decide), supernodeAtdepthOffset, if_neg (by simp [h.header]), if_pos (by decide)]
    rfl
  · have hend := (supernodeAtdepthOffset_node (k := n.path.length - 1) h hn).map Prod.fst
    have hlast : n.above (n.path.length - 1) = (n.path.getLast?.map (BitVec.ofNat 32)).getD (-fdtErrNotfound) := by
      rw [Node.above, List.getElem?_append_left (by omega), List.getLast?_eq_getElem?]
    rw [← hlast]
    refine hend.congr fun fuel => ?_
    have hcast : (n.path.length : Int) - 1 = ((n.path.length - 1 : Nat) : Int) := by omega
    rw [if_neg (by omega), hcast]

/-- The subnodes of a node are in the tree. -/
theorem mem_of_mem_subnodes {m : Node} (hn : n ∈ f.nodes o path)
    (hm : m ∈ n.subnodes.nodes (Forest.subnodesAt n.offset n.name n.props) (n.path ++ [n.offset])) :
    m ∈ f.nodes o path := by
  induction f generalizing o path with
  | nil => cases hn
  | nop rest ih => exact ih hn
  | node name props subnodes rest ihs ihr =>
    rw [Forest.nodes, List.mem_cons, List.mem_append] at hn ⊢
    rcases hn with rfl | hn | hn
    · exact .inr (.inl hm)
    · exact .inr (.inl (ihs hn))
    · exact .inr (.inr (ihr hn))

theorem exists_of_mem_roots (path : List Nat) {c : Nat} (hc : c ∈ f.roots o) :
    ∃ m ∈ f.nodes o path, m.offset = c ∧ m.path = path := by
  induction f generalizing o with
  | nil => cases hc
  | nop rest ih => exact ih hc
  | node name props subnodes rest ihs ihr =>
    rw [Forest.roots, List.mem_cons] at hc
    rcases hc with rfl | hc
    · exact ⟨_, List.mem_cons_self, rfl, rfl⟩
    · obtain ⟨m, hm, hsame⟩ := ihr hc
      exact ⟨m, List.mem_cons_of_mem _ (List.mem_append_right _ hm), hsame⟩

end Supernode

end Blob

end SeCloak
