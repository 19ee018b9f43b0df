import SeCloak.Kernel.Ancestors
import SeCloak.Libfdt.Steady

/-!
# The devices of a tree in memory

`dt_probe` with the answers of libfdt about a memory that holds a tree: the ancestors of each device are the nodes
that its node is in.
-/

namespace SeCloak
open Misc Misc.Code

namespace Blob

variable {b : Blob} {t : DeviceTree} {names : Word → CString} {n : Node} {f : Forest} {o : Nat} {path : List Nat}

/-- A node is in the list itself, or in one of the nodes. -/
theorem path_of_mem_nodes (hn : n ∈ f.nodes o path) :
    n.path = path ∨ ∃ p ∈ f.nodes o path, n.path = p.path ++ [p.offset] := by
  induction f generalizing o path with
  | nil => cases hn
  | nop rest ih => exact ih hn
  | node name props subnodes rest ihs ihr =>
    rw [Forest.nodes, List.mem_cons, List.mem_append] at hn
    rcases hn with rfl | hn | hn
    · exact .inl rfl
    · rcases ihs hn with hpath | ⟨p, hp, hpath⟩
      · exact .inr ⟨_, List.mem_cons_self, hpath⟩
      · exact .inr ⟨p, List.mem_cons_of_mem _ (List.mem_append_left _ hp), hpath⟩
    · rcases ihr hn with hpath | ⟨p, hp, hpath⟩
      · exact .inl hpath
      · exact .inr ⟨p, List.mem_cons_of_mem _ (List.mem_append_right _ hp), hpath⟩

theorem offset?_error : offset? (some (-fdtErrNotfound)) = none ∧ offset? (some (-fdtErrBadphandle)) = none := by
  decide

theorem node_of_phandle {phandle : Word} (h : b.Represents t names)
    (hr : b.answers.nodeOffsetByPhandle phandle = some o) : ∃ n ∈ t.nodes, n.offset = o := by
  change offset? (result _) = _ at hr
  by_cases hvalid : phandle = 0 ∨ phandle = -1
  · have hend : Ends (fun fuel => b.nodeOffsetByPhandle fuel phandle) (-fdtErrBadphandle) :=
      ends_some.congr fun fuel => by rw [nodeOffsetByPhandle, if_pos hvalid]
    rw [hend.result_eq, offset?_error.2] at hr
    cases hr
  · rw [(nodeOffsetByPhandle_tree h hvalid).result_eq] at hr
    cases hfind : t.nodes.find? fun n => decide (n.phandle names = phandle) with
    | none =>
      rw [hfind] at hr
      change offset? (some (-fdtErrNotfound)) = some o at hr
      rw [offset?_error.1] at hr
      cases hr
    | some n =>
      have hn := List.mem_of_find?_eq_some hfind
      rw [hfind] at hr
      change offset? (some (BitVec.ofNat 32 n.offset)) = some o at hr
      rw [offset?_ofNat (h.offset_lt hn)] at hr
      exact ⟨n, hn, Option.some.inj hr⟩

/-- The answers about a memory that holds a tree lead from nodes to nodes. -/
theorem answers_nodes (h : b.Represents t names) : b.answers.Nodes fun o => ∃ n ∈ t.nodes, n.offset = o where
  root r hr := by
    have htop : (⟨0, [], t.name, t.props, t.subnodes⟩ : Node) ∈ t.nodes := List.mem_cons_self
    have hzero : r = 0 := by
      rw [answers] at hr
      dsimp only at hr
      rw [if_pos h.header] at hr
      exact (Option.some.inj hr).symm
    have hup := answers_parentOffset h htop
    rw [hzero]
    exact ⟨⟨_, htop, rfl⟩, hup⟩
  parent o p hnode hp := by
    obtain ⟨n, hn, rfl⟩ := hnode
    rw [answers_parentOffset h hn] at hp
    rcases path_offsets hn (List.mem_of_getLast? hp) with hnil | hex
    · cases hnil
    · exact hex
  subnodes o c hnode hc := by
    obtain ⟨n, hn, rfl⟩ := hnode
    rw [subnodes_node h hn] at hc
    obtain ⟨p, hp, rfl, hpath⟩ := exists_of_mem_roots (n.path ++ [n.offset]) hc
    have hmem := mem_of_mem_subnodes hn hp
    refine ⟨⟨p, hmem, rfl⟩, ?_⟩
    rw [answers_parentOffset h hmem, hpath, List.getLast?_append]
    rfl
  phandle php o hr := node_of_phandle h hr

/-- The ancestors of a device are those of its node. -/
theorem nodesOf_of_chain {N : Nat → Prop} (h : b.Represents t names) {d : Device} (hchain : b.answers.Chain N d)
    (hn : n ∈ t.nodes) (hnode : n.offset = d.info.node.toNat) : Fdt.nodesOf d = n.offset :: n.path.reverse := by
  induction d generalizing n with
  | root i =>
    have hpath : n.path = [] := by
      have hup := hchain.2
      change b.answers.parentOffset (Device.root i).info.node.toNat = none at hup
      rw [← hnode, answers_parentOffset h hn] at hup
      exact List.getLast?_eq_none_iff.mp hup
    rw [hpath, hnode]
    rfl
  | child i p ih =>
    obtain ⟨-, hup, hparent⟩ := hchain
    change b.answers.parentOffset (Device.child i p).info.node.toNat = _ at hup
    rw [← hnode, answers_parentOffset h hn] at hup
    rcases path_of_mem_nodes hn with hpath | ⟨q, hq, hpath⟩
    · rw [hpath] at hup
      cases hup
    · rw [hpath, List.getLast?_append] at hup
      have hrest := ih hparent hq (Option.some.inj hup)
      have hself : Fdt.nodesOf (.child i p) = i.node.toNat :: Fdt.nodesOf p := rfl
      rw [hself, hrest, hpath, List.reverse_append, hnode]
      rfl

/-- After `dt_probe` of a tree in memory, the ancestors of each device are the nodes that its node is in. -/
theorem dtProbeTree_ancestors {m : Machine} (h : b.Represents t names) (hfdt : m.fdt = b.answers) (fuel : Nat) :
    Within (dtProbeTree m fuel) fun _ _ s' => ∀ bucket, ∀ d ∈ s'.table.bucket bucket, ∃ n ∈ t.nodes,
      Fdt.nodesOf d = n.offset :: n.path.reverse := by
  intro s w u s' hrun bucket d hd
  have hnodes : m.fdt.Nodes fun o => ∃ n ∈ t.nodes, n.offset = o := hfdt ▸ answers_nodes h
  have hchain := dtProbeTree_nests hnodes hrun bucket d hd
  rw [hfdt] at hchain
  have hnode : ∃ n ∈ t.nodes, n.offset = d.info.node.toNat := by
    cases d with
    | root i => exact hchain.1
    | child i p => exact hchain.1
  obtain ⟨n, hn, hoff⟩ := hnode
  exact ⟨n, hn, nodesOf_of_chain h hchain hn hoff⟩

/-! ## A tree with a bus

A radio on a bus comes before the interrupt controller that it names. -/

def busTree : DeviceTree where
  name := []
  props := [some (11, [0, 0, 0, 1]), some (26, [0, 0, 0, 1])]
  subnodes :=
    .node [0x73] [some (0, [0x62, 0])]
      (.node [0x72] [some (0, [0x72, 0]), some (67, [0, 0, 0, 1]),
        some (84, [0, 0, 0, 0, 0, 0, 0, 22, 0, 0, 0, 4])] .nil .nil)
      (.node [0x69] [some (0, ascii "arm,cortex-a9-gic".toList ++ [0]), some (50, [0, 0, 0, 3]),
        some (38, [0, 0xA0, 0x10, 0, 0, 0, 0x10, 0, 0, 0xA0, 1, 0, 0, 0, 1, 0]),
        some (42, [0, 0, 0, 1])] .nil .nil)

def busStrings : List Byte :=
  ["compatible", "#address-cells", "#size-cells", "reg", "phandle", "#interrupt-cells", "interrupt-parent",
    "interrupts"].flatMap fun name => ascii name.toList ++ [0]

def bus : Blob := ofBytes (flatten busTree.tokens busStrings)

theorem bus_represents : bus.Represents busTree (nameIn busStrings) := by
  refine represents_flatten (hasBytes_ofBytes ?_) (by decide) (by decide) (by decide) (by decide)
  rw [length_flatten]
  decide

/-- The board with the answers about a tree in memory. -/
def boardOf (fdt : Fdt) : Machine where
  env := imx6
  fdt := fdt
  hw := Board.noHardware

/-- The nodes of the device at each node, and the interrupts of the radio. -/
def busDevices (s : Dt) : List (Option (List Nat)) × Option (List IrqInfo) :=
  ([0, 40, 64, 136].map fun node => (s.table.lookup (node : Nat)).map Fdt.nodesOf,
    (s.table.lookup 64).map fun d => d.info.irqs)

/-- The walk creates the interrupt controller when it comes to the radio. -/
theorem bus_walk : ∃ w u s', Runs (dtProbeTree (boardOf bus.answers) 5) Board.unprobed w u s' ∧
    busDevices s' = ([some [0], some [40, 0], some [64, 40, 0], some [136, 0]], some [⟨⟨.gic, 54⟩, 4⟩]) := by
  have hout : ((dtProbeTree (boardOf (bus.answersWithin 40)) 5).out Board.unprobed).map
      (fun x => busDevices x.2) =
        some ([some [0], some [40, 0], some [64, 40, 0], some [136, 0]], some [⟨⟨.gic, 54⟩, 4⟩]) := by
    decide +kernel
  rw [answersWithin_eq] at hout
  obtain ⟨⟨u, s'⟩, hrun, hdevices⟩ := Option.map_eq_some_iff.mp hout
  obtain ⟨w, hrun⟩ := out_eq_some.mp hrun
  exact ⟨w, u, s', hrun, hdevices⟩

theorem dtProbeTree_ancestors_bus :
    (∃ w u s', Runs (dtProbeTree (boardOf bus.answers) 5) Board.unprobed w u s' ∧
      busDevices s' = ([some [0], some [40, 0], some [64, 40, 0], some [136, 0]], some [⟨⟨.gic, 54⟩, 4⟩])) ∧
    Within (dtProbeTree (boardOf bus.answers) 5) fun _ _ s' => ∀ bucket, ∀ d ∈ s'.table.bucket bucket,
      ∃ n ∈ busTree.nodes, Fdt.nodesOf d = n.offset :: n.path.reverse :=
  ⟨bus_walk, dtProbeTree_ancestors bus_represents rfl 5⟩

end Blob

end SeCloak
