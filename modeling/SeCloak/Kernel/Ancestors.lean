import SeCloak.Kernel.Descriptors

/-!
# The ancestors of the devices

The devices that `dt_probe` creates have the nodes above their own as parents: each pointer to a parent is the
answer of `fdt_parent_offset`, also where the device is created on the way down through the subnodes.
-/

namespace SeCloak
open Misc Misc.Code

/-- The answers lead from nodes to nodes, and the subnodes of a node have it as their parent. -/
structure Fdt.Nodes (fdt : Fdt) (N : Nat → Prop) : Prop where
  root : ∀ r, fdt.root = some r → N r ∧ fdt.parentOffset r = none
  parent : ∀ n p, N n → fdt.parentOffset n = some p → N p
  subnodes : ∀ n c, N n → c ∈ fdt.subnodes n → N c ∧ fdt.parentOffset c = some n
  phandle : ∀ h n, fdt.nodeOffsetByPhandle h = some n → N n

/-- The parents of a device are those of its node. -/
def Fdt.Chain (fdt : Fdt) (N : Nat → Prop) : Device → Prop
  | .root i => N i.node.toNat ∧ fdt.parentOffset i.node.toNat = none
  | .child i p => N i.node.toNat ∧ fdt.parentOffset i.node.toNat = some p.info.node.toNat ∧ fdt.Chain N p

/-- Every device in the table has the parents of its node. -/
def Dt.Nested (m : Machine) (N : Nat → Prop) (s : Dt) : Prop := ∀ b, ∀ d ∈ s.table.bucket b, m.fdt.Chain N d

def Nests (m : Machine) (N : Nat → Prop) : Dt → List Event → Dt → Prop :=
  fun s _ s' => s.Nested m N → s'.Nested m N

section Nests

variable {m : Machine} {N : Nat → Prop} {s s' : Dt} {w : List Event} {probe : Nat → DtCode (Option Device)}

theorem nests_closed (m : Machine) (N : Nat → Prop) : Closed (Nests m N) where
  nil _ hs := hs
  append h h' hs := h' (h hs)

theorem nests_of_table (htable : s'.table = s.table) : Nests m N s w s' := by
  intro hs b d hd
  rw [htable] at hd
  exact hs b d hd

theorem onSys_nests {α : Type} (c : Kernel α) : Within (onSys c) (Nests m N) := by
  intro s w x s' h
  obtain ⟨t, -, rfl⟩ := runs_zoom.mp h
  exact nests_of_table rfl

theorem machine_malloc_nests (size : Int) : Within (m.malloc size) (Nests m N) := by
  intro s w ok s' h
  obtain ⟨-, -, rfl⟩ := machine_malloc_runs.mp h
  exact nests_of_table rfl

theorem deviceLookup_nests (node : Nat) : Within (deviceLookup node) (Nests m N) := by
  intro s w found s' h
  obtain ⟨-, -, rfl⟩ := deviceLookup_runs.mp h
  exact nests_of_table rfl

/-- What a walk may rely on when it probes the device of another node. -/
structure ProbeNests (m : Machine) (N : Nat → Prop) (probe : Nat → DtCode (Option Device)) : Prop where
  nests : ∀ offset, N offset → Within (probe offset) (Nests m N)
  chain : ∀ {offset s w d s'}, N offset → s.Nested m N → Runs (probe offset) s w (some d) s' →
    m.fdt.Chain N d ∧ d.info.node = (offset : Nat)

theorem deviceFor_nests (hprobe : ProbeNests m N probe) {offset : Nat} (hoff : N offset) :
    Within (deviceFor probe offset) (Nests m N) := by
  refine within_bind (nests_closed m N) (deviceLookup_nests offset) fun found => ?_
  cases found with
  | some d => exact within_pure (nests_closed m N) _
  | none => exact hprobe.nests offset hoff

theorem mem_of_lookup {t : DeviceTable} {node : Int} {d : Device} (h : t.lookup node = some d) :
    d ∈ t.bucket (bucketOf node) := List.mem_of_find?_eq_some h

theorem deviceFor_chain (hprobe : ProbeNests m N probe) {offset : Nat} (hoff : N offset) {d : Device}
    (hs : s.Nested m N) (h : Runs (deviceFor probe offset) s w (some d) s') :
    m.fdt.Chain N d ∧ d.info.node = (offset : Nat) := by
  obtain ⟨_, found, s₁, _, hlookup, h, -⟩ := runs_bind.mp h
  obtain ⟨-, rfl, rfl⟩ := deviceLookup_runs.mp hlookup
  cases hfound : s₁.table.lookup offset with
  | none =>
    rw [hfound] at h
    exact hprobe.chain hoff hs h
  | some d' =>
    rw [hfound] at h
    obtain ⟨-, hd, -⟩ := runs_pure.mp h
    obtain rfl := Option.some.inj hd
    exact ⟨hs _ d (mem_of_lookup hfound), lookup_node hfound⟩

theorem nests_parses (hnodes : m.fdt.Nodes N) (hprobe : ProbeNests m N probe) : Parses m probe (Nests m N) where
  closed := nests_closed m N
  alloc := onSys_nests _
  malloc := machine_malloc_nests
  asserts _ _ := onSys_nests _
  controller _ _ hphandle := deviceFor_nests hprobe (hnodes.phandle _ _ hphandle)

/-! ## Devices -/

theorem deviceCreate_nests (hnodes : m.fdt.Nodes N) (hprobe : ProbeNests m N probe) (fuel node : Nat)
    (parent : Option Device) (strict : Bool) :
    Within (deviceCreate m probe fuel node parent strict) (Nests m N) :=
  deviceCreate_within (nests_parses hnodes hprobe) fuel node parent strict

/-- The parents that a device of a node may get. -/
def Fdt.ParentIs (fdt : Fdt) (N : Nat → Prop) (node : Nat) : Option Device → Prop
  | none => fdt.parentOffset node = none
  | some p => fdt.parentOffset node = some p.info.node.toNat ∧ fdt.Chain N p

theorem deviceCreate_chain {fuel node : Nat} {parent : Option Device} {strict : Bool} {d : Device} (hnode : N node)
    (hparent : m.fdt.ParentIs N node parent)
    (h : Runs (deviceCreate m probe fuel node parent strict) s w (some d) s') :
    m.fdt.Chain N d ∧ d.info.node = (node : Nat) := by
  obtain ⟨parsed⟩ := deviceCreate_runs h
  have hinfo : d.info.node = (node : Nat) := by rw [parsed.info]; rfl
  refine ⟨?_, hinfo⟩
  rw [parsed.device]
  cases parent with
  | none => exact ⟨hnode, hparent⟩
  | some p => exact ⟨hnode, hparent⟩

theorem deviceInsert_nests {dev : Device} {u : Unit} (hdev : m.fdt.Chain N dev)
    (h : Runs (deviceInsert dev) s w u s') : Nests m N s w s' := by
  obtain ⟨-, rfl⟩ := runs_modify.mp h
  intro hs b d hd
  rcases mem_insert hd with rfl | hd
  · exact hdev
  · exact hs b d hd

theorem dtProbeCompatibleDriver_nests (node : Nat) (dev : Device) :
    Within (dtProbeCompatibleDriver m node dev) (Nests m N) := by
  unfold dtProbeCompatibleDriver
  split
  · exact within_pure (nests_closed m N) _
  · refine within_bind (nests_closed m N) (within_get (nests_closed m N)) fun s => ?_
    refine within_bind (nests_closed m N) (onSys_nests _) fun _ => within_modify fun s' => nests_of_table ?_
    split <;> rfl

/-! ## The recursion -/

theorem deviceProbed_nests (hnodes : m.fdt.Nodes N) (hprobe : ProbeNests m N probe) {fuel offset : Nat}
    {parent found : Option Device} (hoff : N offset) (hparent : m.fdt.ParentIs N offset parent) (hs : s.Nested m N)
    (h : Runs (deviceProbed m probe fuel offset parent) s w found s') :
    s'.Nested m N ∧ ∀ d ∈ found, m.fdt.Chain N d ∧ d.info.node = (offset : Nat) := by
  obtain ⟨_, known, s₁, _, hlookup, h₁, -⟩ := runs_bind.mp h
  obtain ⟨-, rfl, rfl⟩ := deviceLookup_runs.mp hlookup
  cases hknown : s₁.table.lookup offset with
  | some d =>
    rw [hknown] at h₁
    obtain ⟨-, rfl, rfl⟩ := runs_pure.mp h₁
    refine ⟨hs, fun d' hd' => ?_⟩
    obtain rfl := Option.some.inj hd'
    exact ⟨hs _ d (mem_of_lookup hknown), lookup_node hknown⟩
  | none =>
    rw [hknown] at h₁
    obtain ⟨_, created, s₂, _, hcreate, h₂, -⟩ := runs_bind.mp h₁
    have hs₂ := deviceCreate_nests hnodes hprobe fuel offset parent true hcreate hs
    cases created with
    | none =>
      obtain ⟨-, rfl, rfl⟩ := runs_pure.mp h₂
      exact ⟨hs₂, by simp⟩
    | some dev =>
      obtain ⟨_, _, s₃, _, hinsert, h₃, -⟩ := runs_bind.mp h₂
      obtain ⟨_, _, s₄, _, hdriver, h₄, -⟩ := runs_bind.mp h₃
      obtain ⟨-, rfl, rfl⟩ := runs_pure.mp h₄
      have hdev := deviceCreate_chain hoff hparent hcreate
      have hs₃ := deviceInsert_nests hdev.1 hinsert hs₂
      refine ⟨dtProbeCompatibleDriver_nests _ _ hdriver hs₃, fun d hd => ?_⟩
      obtain rfl := Option.some.inj hd
      exact hdev

theorem parentFor_nests (hnodes : m.fdt.Nodes N) (hprobe : ProbeNests m N probe) {offset : Nat} (hoff : N offset)
    {known : Option (Option Device)} (hs : s.Nested m N) (h : Runs (parentFor m probe offset) s w known s') :
    s'.Nested m N ∧ ∀ parent ∈ known, m.fdt.ParentIs N offset parent := by
  unfold parentFor at h
  cases hp : m.fdt.parentOffset offset with
  | none =>
    rw [hp] at h
    obtain ⟨-, rfl, rfl⟩ := runs_pure.mp h
    refine ⟨hs, fun parent hmem => ?_⟩
    obtain rfl := Option.some.inj hmem
    exact hp
  | some parentOffset =>
    rw [hp] at h
    have hpar := hnodes.parent _ _ hoff hp
    obtain ⟨_, found, s₁, _, hfor, h₁, -⟩ := runs_bind.mp h
    obtain ⟨-, rfl, rfl⟩ := runs_pure.mp h₁
    refine ⟨deviceFor_nests hprobe hpar hfor hs, fun parent hmem => ?_⟩
    cases found with
    | none => cases hmem
    | some d =>
      obtain rfl := Option.some.inj hmem
      obtain ⟨hchain, hnode⟩ := deviceFor_chain hprobe hpar hs hfor
      refine ⟨?_, hchain⟩
      rw [hp, hnode, Int.toNat_natCast]

/-- What comes after the device of the node: nothing, or the walk of its children. -/
theorem deviceProbed_bind_nests (hnodes : m.fdt.Nodes N) (hprobe : ProbeNests m N probe) {fuel offset : Nat}
    {parent found : Option Device} {K : Option Device → DtCode (Option Device)}
    {children : Device → DtCode Unit} (hnone : K none = pure none)
    (hsome : ∀ dev, K (some dev) = children dev >>= fun _ => pure (some dev))
    (hchildren : ∀ dev, m.fdt.Chain N dev → dev.info.node = (offset : Nat) → Within (children dev) (Nests m N))
    (hoff : N offset) (hparent : m.fdt.ParentIs N offset parent) (hs : s.Nested m N)
    (h : Runs (deviceProbed m probe fuel offset parent >>= K) s w found s') :
    s'.Nested m N ∧ ∀ d ∈ found, m.fdt.Chain N d ∧ d.info.node = (offset : Nat) := by
  obtain ⟨w₁, created, s₁, w₂, hcreated, h₁, rfl⟩ := runs_bind.mp h
  obtain ⟨hs₁, hdev⟩ := deviceProbed_nests hnodes hprobe hoff hparent hs hcreated
  cases created with
  | none =>
    rw [hnone] at h₁
    obtain ⟨rfl, rfl, rfl⟩ := runs_pure.mp h₁
    exact ⟨hs₁, by simp⟩
  | some dev =>
    rw [hsome] at h₁
    obtain ⟨w₃, _, s₂, w₄, hloop, h₂, rfl⟩ := runs_bind.mp h₁
    obtain ⟨rfl, rfl, rfl⟩ := runs_pure.mp h₂
    obtain ⟨hchain, hnode⟩ := hdev dev rfl
    exact ⟨hchildren dev hchain hnode hloop hs₁, hdev⟩

/-- The walk from any node. -/
theorem dtProbeDevice_nests (hnodes : m.fdt.Nodes N) {fuel offset : Nat} {parent found : Option Device}
    {children : Bool} (hoff : N offset) (hparent : ∀ p, parent = some p → m.fdt.ParentIs N offset (some p))
    (hs : s.Nested m N) (h : Runs (dtProbeDevice m fuel offset parent children) s w found s') :
    s'.Nested m N ∧ ∀ d ∈ found, m.fdt.Chain N d ∧ d.info.node = (offset : Nat) := by
  induction fuel generalizing offset parent children s w found s' with
  | zero => exact absurd h runs_throw
  | succ fuel ih =>
    have hprobe : ProbeNests m N fun offset => dtProbeDevice m fuel offset none false :=
      ⟨fun _ hoff _ _ _ _ hrun hs => (ih hoff (by simp) hs hrun).1,
        fun hoff hs hrun => (ih hoff (by simp) hs hrun).2 _ rfl⟩
    have hchildren : ∀ dev, m.fdt.Chain N dev → dev.info.node = (offset : Nat) →
        Within (runIf (children = true) (forEach (fun child => do
          let _ ← dtProbeDevice m fuel child (some dev) true
          pure ()) (m.fdt.subnodes offset))) (Nests m N) := by
      intro dev hchain hnode
      refine within_runIf (nests_closed m N) (within_forEach (nests_closed m N) fun child hchild => ?_)
      obtain ⟨hchildOff, hup⟩ := hnodes.subnodes _ _ hoff hchild
      refine within_bind (nests_closed m N) (fun _ _ _ _ hrun hs => (ih hchildOff (fun p hp => ?_) hs hrun).1) fun _ =>
        within_pure (nests_closed m N) _
      obtain rfl := Option.some.inj hp
      refine ⟨?_, hchain⟩
      rw [hup, hnode, Int.toNat_natCast]
    rw [dtProbeDevice.eq_def] at h
    cases parent with
    | some p =>
      refine deviceProbed_bind_nests hnodes hprobe ?_ ?_ hchildren hoff (hparent p rfl) hs (runs_pure_bind.mp h)
      · rfl
      · exact fun _ => rfl
    | none =>
      obtain ⟨w₁, known, s₁, w₂, hknown, h₁, rfl⟩ := runs_bind.mp h
      obtain ⟨hs₁, hpar⟩ := parentFor_nests hnodes hprobe hoff hs hknown
      cases known with
      | none =>
        obtain ⟨rfl, rfl, rfl⟩ := runs_pure.mp h₁
        exact ⟨hs₁, by simp⟩
      | some p =>
        refine deviceProbed_bind_nests hnodes hprobe ?_ ?_ hchildren hoff (hpar p rfl) hs₁ h₁
        · rfl
        · exact fun _ => rfl

theorem Fdt.Chain.simpleBus {fdt : Fdt} {d : Device} (h : fdt.Chain N d) : fdt.Chain N d.simpleBus := by
  cases d <;> exact h

/-- After `dt_probe` every device has the parents of its node. -/
theorem dtProbeTree_nests (hnodes : m.fdt.Nodes N) {fuel : Nat} {u : Unit}
    (h : Runs (dtProbeTree m fuel) s w u s') : s'.Nested m N := by
  have hempty : ({ s with table := ⟨fun _ => []⟩ } : Dt).Nested m N := by
    intro b d hd
    cases hd
  have hprobe : ProbeNests m N fun offset => dtProbeDevice m fuel offset none false :=
    ⟨fun _ hoff _ _ _ _ hrun hs => (dtProbeDevice_nests hnodes hoff (by simp) hs hrun).1,
      fun hoff hs hrun => (dtProbeDevice_nests hnodes hoff (by simp) hs hrun).2 _ rfl⟩
  rw [dtProbeTree, runs_modify_bind] at h
  cases hroot : m.fdt.root with
  | none => simp [hroot] at h
  | some root =>
    simp only [hroot] at h
    obtain ⟨hoff, htop⟩ := hnodes.root root hroot
    obtain ⟨_, created, s₁, _, hcreate, h₁, -⟩ := runs_bind.mp h
    cases created with
    | none => simp at h₁
    | some dev =>
      obtain ⟨_, _, s₂, _, hinsert, hloop, -⟩ := runs_bind.mp h₁
      have hs₁ := deviceCreate_nests hnodes hprobe fuel root none false hcreate hempty
      have hparent : m.fdt.ParentIs N root none := htop
      obtain ⟨hdev, hnode⟩ := deviceCreate_chain hoff hparent hcreate
      have hs₂ := deviceInsert_nests hdev.simpleBus hinsert hs₁
      have hchild : ∀ child ∈ m.fdt.subnodes root, Within (do
          let _ ← dtProbeDevice m fuel child (some dev.simpleBus) true
          pure ()) (Nests m N) := by
        intro child hchild
        obtain ⟨hchildOff, hup⟩ := hnodes.subnodes _ _ hoff hchild
        refine within_bind (nests_closed m N)
          (fun _ _ _ _ hrun hs => (dtProbeDevice_nests hnodes hchildOff (fun p hp => ?_) hs hrun).1) fun _ =>
          within_pure (nests_closed m N) _
        obtain rfl := Option.some.inj hp
        have hbus : dev.simpleBus.info.node = dev.info.node := by cases dev <;> rfl
        refine ⟨?_, hdev.simpleBus⟩
        rw [hup, hbus, hnode, Int.toNat_natCast]
      exact within_forEach (nests_closed m N) hchild hloop hs₂

end Nests

end SeCloak
