import SeCloak.Drivers.Fdt
import SeCloak.Libfdt.Props

/-!
# The answers of libfdt

The functions of `dt.c` are modelled over the answers of libfdt, a value of `Fdt`. Here is the value that
the code of libfdt gives for a memory (`Blob.answers`), and what it is for a memory that holds a tree.
-/

namespace SeCloak
open Misc

namespace Blob

/-- An offset, unless it is an error. -/
def offset? (r : Option Word) : Option Nat := r.bind fun w => if 0 ≤ w.toInt then some w.toNat else none

/-- The property that `fdt_getprop` returned the address and the length of. -/
def propAt (b : Blob) (prop : Except Word (Word × Word)) : Option FdtProp :=
  match prop with
  | .ok (p, len) => if h : len.toNat < 2 ^ 30 then some ⟨len.toNat, fun i => b.mem (p + i), h⟩ else none
  | .error _ => none

/-- The answers about the tree in a memory. `fdt_path_offset` of `/` is 0 (`fdt_ro.c:157-199`). -/
noncomputable def answers (b : Blob) : Fdt where
  getprop node name :=
    (result fun fuel => b.getprop fuel (BitVec.ofNat 32 node) (ascii name.toList)).bind b.propAt
  compatible node compatible :=
    decide ((result fun fuel => b.nodeCheckCompatible fuel (BitVec.ofNat 32 node) compatible) = some 0)
  phandle node := (result fun fuel => b.getPhandle fuel (BitVec.ofNat 32 node)).getD 0
  nodeOffsetByPhandle phandle := offset? (result fun fuel => b.nodeOffsetByPhandle fuel phandle)
  parentOffset node := offset? (result fun fuel => b.parentOffset fuel (BitVec.ofNat 32 node))
  subnodes node := ((result fun fuel => b.forEachSubnode fuel (BitVec.ofNat 32 node)).getD []).map BitVec.toNat
  root := if b.checkHeader = 0 then some 0 else none

section Answers

variable {b : Blob} {t : DeviceTree} {names : Word → CString} {n : Node} {f : Forest} {o : Nat} {path : List Nat}

theorem offset?_ofNat {c : Nat} (hc : c < 2 ^ 31) : offset? (some (BitVec.ofNat 32 c)) = some c := by
  have hval : (BitVec.ofNat 32 c).toNat = c := Nat.mod_eq_of_lt (by omega)
  have hint : (BitVec.ofNat 32 c).toInt = c := by
    rw [BitVec.toInt_eq_toNat_of_lt (by omega), hval]
  rw [offset?, Option.bind_some, if_pos (by omega), hval]

/-- The offsets of the nodes of a tree are not negative. -/
theorem Represents.offset_lt (h : b.Represents t names) (hn : n ∈ t.nodes) : n.offset < 2 ^ 31 := by
  have hin := offset_of_mem hn
  have hle := h.tokens.le
  have hsize := h.placed.size
  rw [DeviceTree.tokens, extent_append] at hle
  omega

/-- The nodes that a node is in are nodes of the tree. -/
theorem path_offsets {c : Nat} (hn : n ∈ f.nodes o path) (hc : c ∈ n.path) :
    c ∈ path ∨ ∃ m ∈ f.nodes o path, m.offset = c := by
  induction f generalizing o path with
  | nil => cases hn
  | nop rest ih => exact ih hn
  | node name props subnodes rest ihs ihr =>
    rw [Forest.nodes, List.mem_cons, List.mem_append] at hn
    rcases hn with rfl | hn | hn
    · exact .inl hc
    · rcases ihs hn with hpath | ⟨m, hm, hoff⟩
      · rcases List.mem_append.mp hpath with hpath | hself
        · exact .inl hpath
        · obtain rfl := List.mem_singleton.mp hself
          exact .inr ⟨_, List.mem_cons_self, rfl⟩
      · exact .inr ⟨m, List.mem_cons_of_mem _ (List.mem_append_left _ hm), hoff⟩
    · rcases ihr hn with hpath | ⟨m, hm, hoff⟩
      · exact .inl hpath
      · exact .inr ⟨m, List.mem_cons_of_mem _ (List.mem_append_right _ hm), hoff⟩

theorem answers_parentOffset (h : b.Represents t names) (hn : n ∈ t.nodes) :
    b.answers.parentOffset n.offset = n.path.getLast? := by
  have hend := (parentOffset_node h hn).result_eq
  change offset? (result _) = _
  rw [hend]
  cases hlast : n.path.getLast? with
  | none => rfl
  | some c =>
    rcases path_offsets hn (List.mem_of_getLast? hlast) with hnil | ⟨m, hm, rfl⟩
    · cases hnil
    · exact offset?_ofNat (h.offset_lt hm)

theorem subnodes_node (h : b.Represents t names) (hn : n ∈ t.nodes) :
    b.answers.subnodes n.offset = n.subnodes.roots (Forest.subnodesAt n.offset n.name n.props) := by
  change ((result _).getD []).map BitVec.toNat = _
  rw [(forEachSubnode_node h hn).result_eq, Option.getD_some, List.map_map]
  refine (List.map_congr_left fun c hc => ?_).trans (List.map_id _)
  obtain ⟨m, hm, rfl, -⟩ := exists_of_mem_roots (n.path ++ [n.offset]) hc
  have hlt := h.offset_lt (mem_of_mem_subnodes hn hm)
  exact Nat.mod_eq_of_lt (by omega)

/-- The loop over the subnodes of a node ends. The subnodes are those that have the node as their parent in the
structure block, in their order, and `fdt_parent_offset` leads back from each one. -/
theorem answers_subnodes (h : b.Represents t names) (hn : n ∈ t.nodes) :
    Ends (fun fuel => b.forEachSubnode fuel (BitVec.ofNat 32 n.offset))
        ((n.subnodes.roots (Forest.subnodesAt n.offset n.name n.props)).map (BitVec.ofNat 32)) ∧
      b.answers.subnodes n.offset = n.subnodes.roots (Forest.subnodesAt n.offset n.name n.props) ∧
      ∀ c ∈ b.answers.subnodes n.offset, b.answers.parentOffset c = some n.offset := by
  refine ⟨forEachSubnode_node h hn, subnodes_node h hn, fun c hc => ?_⟩
  rw [subnodes_node h hn] at hc
  obtain ⟨m, hm, rfl, hpath⟩ := exists_of_mem_roots (n.path ++ [n.offset]) hc
  rw [answers_parentOffset h (mem_of_mem_subnodes hn hm), hpath, List.getLast?_append]
  rfl

theorem answers_subnodes_sample :
    Ends (fun fuel => sample.forEachSubnode fuel (BitVec.ofNat 32 sampleRoot.offset))
        ((sampleRoot.subnodes.roots
          (Forest.subnodesAt sampleRoot.offset sampleRoot.name sampleRoot.props)).map (BitVec.ofNat 32)) ∧
      sample.answers.subnodes sampleRoot.offset =
        sampleRoot.subnodes.roots (Forest.subnodesAt sampleRoot.offset sampleRoot.name sampleRoot.props) ∧
      ∀ c ∈ sample.answers.subnodes sampleRoot.offset, sample.answers.parentOffset c = some sampleRoot.offset :=
  answers_subnodes sample_represents sampleRoot_mem

/-- `fdt_supernode_atdepth_offset` finds the node at each depth above a node, and `fdt_node_depth` how many
there are. -/
theorem supernode_depth (h : b.Represents t names) (hn : n ∈ t.nodes) :
    Ends (fun fuel => b.nodeDepth fuel (BitVec.ofNat 32 n.offset)) (n.path.length : Int) ∧
      ∀ k : Nat, Ends (fun fuel => (b.supernodeAtdepthOffset fuel (BitVec.ofNat 32 n.offset) k).map Prod.fst)
        (if n.path.length < k then -fdtErrNotfound else n.above k) := by
  refine ⟨nodeDepth_node h hn, fun k => ?_⟩
  have hend := (supernodeAtdepthOffset_node (k := k) h hn).map Prod.fst
  split
  next hlt =>
    rw [Node.above, List.getElem?_eq_none (by simp; omega)] at hend
    exact hend
  next => exact hend

theorem supernode_depth_sample :
    Ends (fun fuel => sample.nodeDepth fuel (BitVec.ofNat 32 sampleNode.offset)) (sampleNode.path.length : Int) :=
  (supernode_depth sample_represents sampleNode_mem).1

/-- `fdt_get_phandle` returns the handle of a node, and `fdt_node_offset_by_phandle` finds the first node with a
handle, in the order of the structure block. -/
theorem answers_nodeOffsetByPhandle {phandle : Word} (h : b.Represents t names)
    (hvalid : ¬ (phandle = 0 ∨ phandle = -1)) :
    (∀ n ∈ t.nodes, b.answers.phandle n.offset = n.phandle names) ∧
      (∃ r, Ends (fun fuel => b.nodeOffsetByPhandle fuel phandle) r) ∧ b.answers.nodeOffsetByPhandle phandle =
        (t.nodes.find? fun n => decide (n.phandle names = phandle)).map Node.offset := by
  have hend := nodeOffsetByPhandle_tree h hvalid
  refine ⟨fun n hn => ?_, ⟨_, hend⟩, ?_⟩
  · change (result _).getD 0 = _
    rw [(getPhandle_node h hn).result_eq, Option.getD_some]
  · change offset? (result _) = _
    rw [hend.result_eq]
    cases hfind : t.nodes.find? fun n => decide (n.phandle names = phandle) with
    | none => rfl
    | some n => exact offset?_ofNat (h.offset_lt (List.mem_of_find?_eq_some hfind))

theorem answers_nodeOffsetByPhandle_sample : sample.answers.nodeOffsetByPhandle 5 = some 28 := by
  have hfirst : (sampleTree.nodes.find? fun n => decide (n.phandle (nameIn sampleStrings) = 5)).map Node.offset =
    some 28 := by decide
  rw [← hfirst]
  exact (answers_nodeOffsetByPhandle sample_represents (by decide)).2.2

/-- `fdt_getprop` returns the bytes of the first property with a name. -/
theorem answers_getprop (h : b.Represents t names) (hsmall : b.sizeDtStruct.toNat < 2 ^ 30) (hn : n ∈ t.nodes)
    (name : String) : (∃ r, Ends (fun fuel => b.getprop fuel (BitVec.ofNat 32 n.offset) (ascii name.toList)) r) ∧
      (b.answers.getprop n.offset name).map FdtProp.value = findProp names (ascii name.toList) n.props := by
  obtain ⟨r, hr, hend⟩ := getprop_node (ascii name.toList) h hn
  refine ⟨⟨r, hend⟩, ?_⟩
  rw [answers]
  dsimp only
  rw [hend.result_eq]
  cases hfind : findProp names (ascii name.toList) n.props with
  | none =>
    rw [hfind] at hr
    obtain rfl := show r = _ from hr
    rfl
  | some value =>
    rw [hfind] at hr
    obtain ⟨p, rfl, hbytes, hlen⟩ := hr
    have hval : (BitVec.ofNat 32 value.length).toNat = value.length := Nat.mod_eq_of_lt (by omega)
    rw [Option.bind_some, propAt, dif_pos (by omega), Option.map_some, FdtProp.value]
    dsimp only
    rw [hval, hbytes.map_range]

theorem answers_getprop_sample :
    (sample.answers.getprop sampleNode.offset "phandle").map FdtProp.value = some [0, 0, 0, 5] := by
  have hfind : findProp (nameIn sampleStrings) (ascii "phandle".toList) sampleNode.props = some [0, 0, 0, 5] := by
    decide
  rw [← hfind]
  exact (answers_getprop sample_represents (by decide) sampleNode_mem "phandle").2

/-- `fdt_node_check_compatible` finds a string in the `compatible` property of a node. -/
theorem answers_compatible {str : CString} {ss : List CString} {value : List Byte} (h : b.Represents t names)
    (hn : n ∈ t.nodes) (hstr : 0 ∉ str) (hne : str ≠ [])
    (hfind : findProp names (ascii ['c', 'o', 'm', 'p', 'a', 't', 'i', 'b', 'l', 'e']) n.props = some value)
    (hlist : SplitsInto 0 value ss) :
    (∃ r, Ends (fun fuel => b.nodeCheckCompatible fuel (BitVec.ofNat 32 n.offset) str) r) ∧
      b.answers.compatible n.offset str = decide (str ∈ ss) := by
  have hlists : ∀ value',
      findProp names (ascii ['c', 'o', 'm', 'p', 'a', 't', 'i', 'b', 'l', 'e']) n.props = some value' →
        SplitsInto 0 value' ss := by
    intro value' hvalue
    rw [hfind] at hvalue
    obtain rfl := Option.some.inj hvalue
    exact hlist
  have hend := nodeCheckCompatible_node h hn hstr hne hlists
  refine ⟨⟨_, hend⟩, ?_⟩
  rw [hfind, if_neg (by simp)] at hend
  rw [answers]
  dsimp only
  rw [hend.result_eq, decide_eq_decide, Option.some.injEq]
  by_cases hmem : str ∈ ss
  · simp [hmem]
  · simp [hmem]

theorem answers_compatible_sample : sample.answers.compatible sampleRoot.offset [0x62, 0x63] = true := by
  have hlist : SplitsInto (0 : Byte) [0x61, 0, 0x62, 0x63, 0] [[0x61], [0x62, 0x63]] := ⟨rfl, by decide⟩
  exact (answers_compatible sample_represents sampleRoot_mem (by decide) (by decide) (by decide) hlist).2

end Answers

end Blob

end SeCloak
