import SeCloak.Kernel.Numbers
import SeCloak.Kernel.WalkIrqs

/-!
# The descriptors of a device tree

What `irq_map` answers is ignored, and it reads as many cells as the chip wants, so that a
descriptor is as good as the specifier in the tree: after `dt_probe` the descriptors of all devices
are valid exactly if every specifier lies inside its property and names an interrupt that its
controller has.
-/

namespace SeCloak
open Misc Misc.Code

/-! ## The recursion -/

section Recursion

variable {m : Machine} {s s' : Dt} {w : List Event} {probe : Nat → DtCode (Option Device)}

theorem mem_insert {t : DeviceTable} {dev d : Device} {b : Nat}
    (h : d ∈ (t.insert dev).bucket b) : d = dev ∨ d ∈ t.bucket b := by
  unfold DeviceTable.insert at h
  by_cases hb : b = bucketOf dev.info.node
  · subst hb
    simpa using h
  · right
    simpa [hb] using h

theorem deviceInsert_sound {dev : Device} {u : Unit} (hs : s.Sound m) (hdev : s.Described m dev)
    (h : Runs (deviceInsert dev) s w u s') : s'.Sound m ∧ s.Grown m s' := by
  obtain ⟨-, rfl⟩ := runs_modify.mp h
  have hgrown : s.Grown m { s with table := s.table.insert dev } := Dt.grown_of_shape rfl rfl
  refine ⟨⟨hs.wired.of_shape rfl rfl, fun b d hd => ?_⟩, hgrown⟩
  rcases mem_insert hd with rfl | hd
  · exact hdev.mono hgrown
  · exact (hs.table b d hd).mono hgrown

theorem dtProbeCompatibleDriver_sound {node : Nat} {dev : Device} {u : Unit}
    (hnode : dev.info.node = node) (h : Runs (dtProbeCompatibleDriver m node dev) s w u s') :
    Walks m s w s' := by
  intro hs
  obtain ⟨hwired, hgrown, htable⟩ := dtProbeCompatibleDriver_wired hs.wired hnode h
  refine ⟨⟨hwired, fun b d hd => ?_⟩, hgrown⟩
  rw [htable] at hd
  exact (hs.table b d hd).mono hgrown

/-- The device of a node is created once, and its node is the one that was asked for. -/
theorem deviceProbed_sound {fuel offset : Nat} {parent found : Option Device}
    (hprobe : ProbeOk m probe) (h : Runs (deviceProbed m probe fuel offset parent) s w found s') :
    Walks m s w s' ∧ ∀ d ∈ found, d.info.node = offset := by
  obtain ⟨_, known, s₁, _, hlookup, h₁, -⟩ := runs_bind.mp h
  obtain ⟨-, rfl, rfl⟩ := deviceLookup_runs.mp hlookup
  cases hknown : s₁.table.lookup offset with
  | some d =>
    rw [hknown] at h₁
    obtain ⟨-, rfl, rfl⟩ := runs_pure.mp h₁
    refine ⟨(walks_closed m).nil _, fun d' hd' => ?_⟩
    obtain rfl := Option.some.inj hd'
    exact lookup_node hknown
  | none =>
    rw [hknown] at h₁
    obtain ⟨_, created, s₂, _, hcreate, h₂, -⟩ := runs_bind.mp h₁
    have hwalks := deviceCreate_walks hprobe fuel offset parent true hcreate
    cases created with
    | none =>
      obtain ⟨-, rfl, rfl⟩ := runs_pure.mp h₂
      exact ⟨hwalks, by simp⟩
    | some dev =>
      obtain ⟨_, _, s₃, _, hinsert, h₃, -⟩ := runs_bind.mp h₂
      obtain ⟨_, _, s₄, _, hdriver, h₄, -⟩ := runs_bind.mp h₃
      obtain ⟨-, rfl, rfl⟩ := runs_pure.mp h₄
      refine ⟨fun hs => ?_, fun d hd => ?_⟩
      · obtain ⟨hs₂, hgrown₂⟩ := hwalks hs
        obtain ⟨hdev, hnode⟩ := deviceCreate_described hprobe hs hcreate
        obtain ⟨hs₃, hgrown₃⟩ := deviceInsert_sound hs₂ hdev hinsert
        obtain ⟨hs₄, hgrown₄⟩ := dtProbeCompatibleDriver_sound hnode hdriver hs₃
        exact ⟨hs₄, (hgrown₂.trans hgrown₃).trans hgrown₄⟩
      · obtain rfl := Option.some.inj hd
        obtain ⟨parsed⟩ := deviceCreate_runs hcreate
        rw [parsed.info]
        rfl

theorem parentFor_walks (hprobe : ProbeOk m probe) (offset : Nat) :
    Within (parentFor m probe offset) (Walks m) := by
  unfold parentFor
  split
  · exact within_pure (walks_closed m) _
  · exact within_bind (walks_closed m) (deviceFor_walks hprobe _) fun _ =>
      within_pure (walks_closed m) _

/-- What comes after the device of the node: nothing, or the walk of its children. -/
theorem deviceProbed_bind_sound (hprobe : ProbeOk m probe) {fuel offset : Nat}
    {parent found : Option Device} {K : Option Device → DtCode (Option Device)}
    {children : Device → DtCode Unit} (hnone : K none = pure none)
    (hsome : ∀ dev, K (some dev) = children dev >>= fun _ => pure (some dev))
    (hchildren : ∀ dev, Within (children dev) (Walks m))
    (h : Runs (deviceProbed m probe fuel offset parent >>= K) s w found s') :
    Walks m s w s' ∧ ∀ d ∈ found, d.info.node = offset := by
  obtain ⟨w₁, created, s₁, w₂, hcreated, h₁, rfl⟩ := runs_bind.mp h
  obtain ⟨hwalks₁, hnode⟩ := deviceProbed_sound hprobe hcreated
  cases created with
  | none =>
    rw [hnone] at h₁
    obtain ⟨rfl, rfl, rfl⟩ := runs_pure.mp h₁
    exact ⟨(walks_closed m).append hwalks₁ ((walks_closed m).nil _), by simp⟩
  | some dev =>
    rw [hsome] at h₁
    obtain ⟨w₃, _, s₂, w₄, hloop, h₂, rfl⟩ := runs_bind.mp h₁
    obtain ⟨rfl, rfl, rfl⟩ := runs_pure.mp h₂
    have hwalks₂ := (walks_closed m).append (hchildren dev hloop) ((walks_closed m).nil _)
    exact ⟨(walks_closed m).append hwalks₁ hwalks₂, hnode⟩

/-- A walk from any node keeps the invariant. -/
theorem dtProbeDevice_sound {fuel offset : Nat} {parent found : Option Device} {children : Bool}
    (h : Runs (dtProbeDevice m fuel offset parent children) s w found s') :
    Walks m s w s' ∧ ∀ d ∈ found, d.info.node = offset := by
  induction fuel generalizing offset parent children s w found s' with
  | zero => exact absurd h runs_throw
  | succ fuel ih =>
    have hprobe : ProbeOk m fun offset => dtProbeDevice m fuel offset none false :=
      ⟨fun _ _ _ _ _ hrun => (ih hrun).1, fun hrun => (ih hrun).2 _ rfl⟩
    have hchildren : ∀ dev, Within (runIf (children = true) (forEach (fun child => do
        let _ ← dtProbeDevice m fuel child (some dev) true
        pure ()) (m.fdt.subnodes offset))) (Walks m) := fun dev =>
      within_runIf (walks_closed m) (within_forEach (walks_closed m) fun child _ =>
        within_bind (walks_closed m) (fun _ _ _ _ hrun => (ih hrun).1) fun _ =>
          within_pure (walks_closed m) _)
    rw [dtProbeDevice.eq_def] at h
    cases parent with
    | some p =>
      refine deviceProbed_bind_sound hprobe ?_ ?_ hchildren (runs_pure_bind.mp h)
      · rfl
      · exact fun _ => rfl
    | none =>
      obtain ⟨w₁, known, s₁, w₂, hknown, h₁, rfl⟩ := runs_bind.mp h
      have hwalks₁ := parentFor_walks hprobe offset hknown
      cases known with
      | none =>
        obtain ⟨rfl, rfl, rfl⟩ := runs_pure.mp h₁
        exact ⟨(walks_closed m).append hwalks₁ ((walks_closed m).nil _), by simp⟩
      | some p =>
        have hprobed : Walks m s₁ w₂ s' ∧ ∀ d ∈ found, d.info.node = offset := by
          refine deviceProbed_bind_sound hprobe ?_ ?_ hchildren h₁
          · rfl
          · exact fun _ => rfl
        exact ⟨(walks_closed m).append hwalks₁ hprobed.1, hprobed.2⟩

theorem nodesOf_simpleBus (d : Device) : Fdt.nodesOf d.simpleBus = Fdt.nodesOf d := by
  cases d <;> rfl

theorem Dt.Described.simpleBus {d : Device} (h : s.Described m d) :
    s.Described m d.simpleBus := by
  have hnodes := nodesOf_simpleBus d
  have hnode : d.simpleBus.info.node = d.info.node := by cases d <;> rfl
  have hirqs : d.simpleBus.info.irqs = d.info.irqs := by cases d <;> rfl
  unfold Dt.Described Fdt.specifiers Fdt.Unwrapped at h ⊢
  rwa [hnodes, hnode, hirqs]

/-- Nothing was probed yet. -/
structure Dt.Unprobed (s : Dt) : Prop where
  listed : s.chips.order = []
  probed : s.chips.probed = []
  lines : ∀ c, (s.sys.chip c).numIrqs = 0
  tables : ∀ n, (s.sys.chip (.gpio n)).handlers = none

theorem dtProbeTree_sound {fuel : Nat} {u : Unit} (hs : s.Unprobed)
    (h : Runs (dtProbeTree m fuel) s w u s') : s'.Sound m := by
  have hempty : ({ s with table := ⟨fun _ => []⟩ } : Dt).Sound m := by
    refine ⟨⟨⟨?_, ?_⟩, fun n hn => ?_, fun c hc => ?_⟩, fun b d hd => ?_⟩
    · simp [hs.lines, hs.probed]
    · simp [hs.lines, hs.probed, gicBeforeGpc]
    · simp [hs.tables n] at hn
    · simp [hs.listed] at hc
    · simp at hd
  have hprobe : ProbeOk m fun offset => dtProbeDevice m fuel offset none false :=
    ⟨fun _ _ _ _ _ hrun => (dtProbeDevice_sound hrun).1,
      fun hrun => (dtProbeDevice_sound hrun).2 _ rfl⟩
  rw [dtProbeTree, runs_modify_bind] at h
  cases hroot : m.fdt.root with
  | none => simp [hroot] at h
  | some root =>
    simp only [hroot] at h
    obtain ⟨_, created, s₁, _, hcreate, h₁, -⟩ := runs_bind.mp h
    cases created with
    | none => simp at h₁
    | some dev =>
      obtain ⟨_, _, s₂, _, hinsert, hloop, -⟩ := runs_bind.mp h₁
      obtain ⟨hs₁, -⟩ := deviceCreate_walks hprobe fuel root none false hcreate hempty
      obtain ⟨hdev, -⟩ := deviceCreate_described hprobe hempty hcreate
      obtain ⟨hs₂, -⟩ := deviceInsert_sound hs₁ hdev.simpleBus hinsert
      have hchild : ∀ child, Within (do
          let _ ← dtProbeDevice m fuel child (some dev.simpleBus) true
          pure ()) (Walks m) := fun child =>
        within_bind (walks_closed m) (fun _ _ _ _ hrun => (dtProbeDevice_sound hrun).1) fun _ =>
          within_pure (walks_closed m) _
      exact (within_forEach (walks_closed m) (fun child _ => hchild child) hloop hs₂).1

end Recursion

/-! ## Valid descriptors -/

/-- No call for the descriptor panics as long as its chip has so many interrupts. -/
def IrqDesc.NeverPanics (env : Env) (d : IrqDesc) (lines : Nat) : Prop :=
  ∀ (t : Sys) (w : List Event), (t.chip d.chip).numIrqs = lines →
    ¬ Stops (irqEnable env d) t w .panic ∧ ¬ Stops (irqDisable d) t w .panic ∧
      ¬ Stops (irqSecure env d) t w .panic ∧ ¬ Stops (irqUnsecure d) t w .panic

theorem neverPanics_of_lt {env : Env} {d : IrqDesc} {lines : Nat} (h : d.irq < lines) :
    d.NeverPanics env lines := by
  intro t w hlines
  have hline : ¬ t.NoLine d .panic := by
    rintro (⟨-, hirq⟩ | ⟨hfault, -⟩)
    · rw [hlines] at hirq
      exact hirq h
    · cases hfault
  refine ⟨fun hstops => ?_, fun hstops => hline (irqDisable_stops hstops).2,
    fun hstops => hline (irqSecure_stops hstops).2, fun hstops => hline (irqUnsecure_stops hstops).2⟩
  rcases (irqEnable_stops hstops).2 with hno | ⟨hfault, -⟩
  · exact hline hno
  · cases hfault

/-- How many interrupts the controller of a node has: the power controller those of the GIC, if that was
probed before it. -/
def Dt.lines (m : Machine) (s : Dt) (node : Nat) : Nat :=
  match m.fdt.driver node with
  | some .gic => m.hw.maxIt
  | some .gpc => if gicBeforeGpc s.chips.probed then m.hw.maxIt else 0
  | some (.gpio _) => 32
  | some .fb | some .keys | none => 0

/-- The descriptor is the decoded specifier, was read from the property and can be used. -/
structure Dt.DescriptorOk (m : Machine) (s : Dt) (sp : Specifier) (info : IrqInfo) : Prop where
  chip : s.ChipFor m sp.controller info.desc.chip
  irq : info.desc.irq = sp.number m.fdt
  flags : info.flags = sp.flags m.fdt
  inside : sp.Inside m.fdt
  valid : info.desc.irq < (s.sys.chip info.desc.chip).numIrqs
  usable : info.desc.NeverPanics m.env (s.sys.chip info.desc.chip).numIrqs

/-- The interrupts of a device are its decoded specifiers, in order. -/
def Dt.DescriptorsOk (m : Machine) (s : Dt) (d : Device) : Prop :=
  ∃ specs, m.fdt.specifiers d = some specs ∧ List.Forall₂ (s.DescriptorOk m) specs d.info.irqs

/-- The specifier lies inside its property and names an interrupt that the controller has. -/
structure Specifier.Fits (m : Machine) (s : Dt) (sp : Specifier) : Prop where
  inside : sp.Inside m.fdt
  number : sp.number m.fdt < s.lines m sp.controller
  word : sp.number m.fdt < 2 ^ 32

/-- What the tree has to say about a device for its descriptors to be valid. -/
structure Dt.SpecifiersFit (m : Machine) (s : Dt) (d : Device) : Prop where
  unwrapped : m.fdt.Unwrapped d
  fits : ∀ specs ∈ m.fdt.specifiers d, ∀ sp ∈ specs, sp.Fits m s

section Valid

variable {m : Machine} {s : Dt} {sp : Specifier} {info : IrqInfo}

/-- The chip computes the number in 32 bits. -/
theorem Dt.Decoded.desc (h : s.Decoded m sp info) (hs : s.Wired m) :
    s.ChipFor m sp.controller info.desc.chip ∧
      (s.sys.chip info.desc.chip).numIrqs = s.lines m sp.controller ∧
      info.desc.irq = sp.number m.fdt % 2 ^ 32 ∧ info.flags = sp.flags m.fdt := by
  obtain ⟨chip, hchip, rfl⟩ := h
  have hcell : ∀ k, sp.prop.cell (BitVec.ofNat 32 sp.pos + BitVec.ofNat 32 k) = sp.cell k := by
    intro k
    rw [Specifier.cell, BitVec.ofNat_add]
  have h0 : sp.prop.cell (BitVec.ofNat 32 sp.pos) = sp.cell 0 := rfl
  have h1 : sp.prop.cell (BitVec.ofNat 32 sp.pos + 1) = sp.cell 1 := hcell 1
  have h2 : sp.prop.cell (BitVec.ofNat 32 sp.pos + 2) = sp.cell 2 := hcell 2
  have hsum : ((if sp.cell 0 = 0 then 32#32 else 16#32) + sp.cell 1).toNat =
      ((sp.cell 1).toNat + if sp.cell 0 = 0 then 32 else 16) % 2 ^ 32 := by
    rw [BitVec.toNat_add, Nat.add_comm]
    split <;> rfl
  cases chip with
  | gic =>
    have hdriver := hchip.1
    refine ⟨hchip, ?_, ?_, ?_⟩
    · simp [FdtProp.irqInfo, irqMap, Dt.lines, hdriver, hchip.2]
    · simp only [FdtProp.irqInfo, irqMap, h0, h1, Specifier.number, hdriver]
      exact hsum
    · simp only [FdtProp.irqInfo, irqMap, h2, Specifier.flags, hdriver]
  | gpc =>
    have hdriver : m.fdt.driver sp.controller = some .gpc := hchip
    refine ⟨hchip, ?_, ?_, ?_⟩
    · simp [FdtProp.irqInfo, irqMap, Dt.lines, hdriver, hs.numbered.gpc]
    · simp only [FdtProp.irqInfo, irqMap, h0, h1, Specifier.number, hdriver]
      exact hsum
    · simp only [FdtProp.irqInfo, irqMap, h2, Specifier.flags, hdriver]
  | gpio n =>
    obtain ⟨hwtype, hdriver⟩ := hchip.1
    refine ⟨hchip, ?_, ?_, ?_⟩
    · simp [FdtProp.irqInfo, irqMap, Dt.lines, hdriver, hchip.2.2.1]
    · simp only [FdtProp.irqInfo, irqMap, h0, Specifier.number, hdriver]
      exact (Nat.mod_eq_of_lt (sp.cell 0).isLt).symm
    · simp only [FdtProp.irqInfo, irqMap, h1, Specifier.flags, hdriver]

theorem Dt.Decoded.ok_iff (h : s.Decoded m sp info) (hs : s.Wired m) :
    s.DescriptorOk m sp info ↔ sp.Fits m s := by
  obtain ⟨hchip, hlines, hirq, hflags⟩ := h.desc hs
  constructor
  · intro hok
    have hnumber := hok.irq
    rw [hirq] at hnumber
    refine ⟨hok.inside, ?_, ?_⟩
    · rw [← hlines, ← hok.irq]
      exact hok.valid
    · rw [← hnumber]
      exact Nat.mod_lt _ (by decide)
  · intro hfits
    rw [Nat.mod_eq_of_lt hfits.word] at hirq
    have hvalid : info.desc.irq < (s.sys.chip info.desc.chip).numIrqs := by
      rw [hirq, hlines]
      exact hfits.number
    exact ⟨hchip, hirq, hflags, hfits.inside, hvalid, neverPanics_of_lt hvalid⟩

theorem forall₂_iff_of_forall₂ {α β : Type} {R S : α → β → Prop} {P : α → Prop} {xs : List α}
    {ys : List β} (h : List.Forall₂ R xs ys) (hiff : ∀ x y, R x y → (S x y ↔ P x)) :
    List.Forall₂ S xs ys ↔ ∀ x ∈ xs, P x := by
  induction h with
  | nil => simp
  | cons hxy _ ih => rw [List.forall₂_cons, ih, hiff _ _ hxy, List.forall_mem_cons]

/-- The descriptors of a device that describes its node. -/
theorem Dt.Described.ok_iff {d : Device} (h : s.Described m d) (hs : s.Wired m) :
    s.DescriptorsOk m d ↔ s.SpecifiersFit m d := by
  obtain ⟨specs, hspecs, hfound⟩ := h
  have hok : s.DescriptorsOk m d ↔ List.Forall₂ (s.DescriptorOk m) specs d.info.irqs := by
    simp [DescriptorsOk, hspecs]
  rw [hok]
  rcases hfound with ⟨hunwrapped, hall⟩ | ⟨hwrapped, hlt⟩
  · have hone : ∀ sp info, s.Decoded m sp info → (s.DescriptorOk m sp info ↔ sp.Fits m s) :=
      fun _ _ hdecoded => hdecoded.ok_iff hs
    rw [forall₂_iff_of_forall₂ hall hone]
    constructor
    · intro hfits
      refine ⟨hunwrapped, fun specs' hspecs' => ?_⟩
      obtain rfl := Option.some.inj (hspecs.symm.trans hspecs')
      exact hfits
    · exact fun hfit => hfit.fits specs hspecs
  · constructor
    · exact fun hall => absurd hall.length_eq hlt.ne
    · exact fun hfit => absurd hfit.unwrapped hwrapped

end Valid

/-- The state in which `dt_probe` is called. -/
theorem unprobed_of_csuInit {env : Env} {mapped : Bool} {s₀ s : Sys} {w : List Event} {u : Unit}
    {t : DeviceTable} (hreset : IsReset s₀) (h : Runs (csuInit env mapped) s₀ w u s) :
    Dt.Unprobed ⟨s, t, {}⟩ := by
  obtain ⟨csl, sa, gic, cpmem, fbmem, mem, rfl⟩ := hreset
  obtain ⟨hrest, -⟩ := csuInit_runs h
  refine ⟨rfl, rfl, fun c => ?_, fun n => ?_⟩
  · rw [hrest]
    rfl
  · rw [hrest]
    rfl

/-- After a `dt_probe` that completes, the descriptors of all devices are valid if and only if the
specifiers of all devices fit. -/
theorem descriptorsOk_iff {m : Machine} {mapped : Bool} {s₀ s₁ : Sys} {w₀ w : List Event}
    {u₀ u : Unit} {t : DeviceTable} {fuel : Nat} {s : Dt} (hreset : IsReset s₀)
    (hcsu : Runs (csuInit m.env mapped) s₀ w₀ u₀ s₁)
    (hprobe : Runs (dtProbeTree m fuel) ⟨s₁, t, {}⟩ w u s) :
    (∀ b, ∀ d ∈ s.table.bucket b, s.DescriptorsOk m d) ↔
      ∀ b, ∀ d ∈ s.table.bucket b, s.SpecifiersFit m d := by
  have hsound := dtProbeTree_sound (unprobed_of_csuInit hreset hcsu) hprobe
  exact forall_congr' fun b => forall₂_congr fun d hd => (hsound.table b d hd).ok_iff hsound.wired

namespace Board

/-- A GIC, and a radio with one specifier on it. -/
def radioTree (interrupts : List Word) (h : 4 * interrupts.length < 2 ^ 30) : Fdt where
  getprop node name :=
    if name = "compatible" then some noCells
    else if node = 0 ∧ (name = "#address-cells" ∨ name = "#size-cells") then
      some (cells [1] (by decide))
    else if node = 8 ∧ name = "reg" then
      some (cells [0x00A01000, 0x1000, 0x00A00100, 0x100] (by decide))
    else if node = 8 ∧ name = "#interrupt-cells" then some (cells [3] (by decide))
    else if node = 20 ∧ name = "interrupt-parent" then some (cells [1] (by decide))
    else if node = 20 ∧ name = "interrupts" then some (cells interrupts h)
    else none
  compatible node name := decide (node = 8 ∧ name =
    ascii ['a', 'r', 'm', ',', 'c', 'o', 'r', 't', 'e', 'x', '-', 'a', '9', '-', 'g', 'i', 'c'])
  phandle node := if node = 8 then 1 else 0
  nodeOffsetByPhandle phandle := if phandle = 1 then some 8 else none
  parentOffset _ := some 0
  subnodes node := if node = 0 then [8, 20] else []
  root := some 0

def radioMachine (interrupts : List Word) (h : 4 * interrupts.length < 2 ^ 30) : Machine where
  env := imx6
  fdt := radioTree interrupts h
  hw := noHardware

/-- The state in which the device tree is walked. -/
def unprobed : Dt := ⟨(csuInit imx6 true).after (resetWithInstr 0), ⟨fun _ => []⟩, {}⟩

/-- The tree after the walk. -/
def radioWalked (m : Machine) : Dt := (dtProbeTree m 4).after unprobed

/-- A radio on interrupt 22 of the shared ones. -/
def radio : Machine := radioMachine [0, 22, 4] (by decide)

/-- A radio on an interrupt that the GIC does not have. -/
def strayRadio : Machine := radioMachine [0, 200, 4] (by decide)

theorem runs_csuInit : ∃ w u, Runs (csuInit imx6 true) (resetWithInstr 0) w u unprobed.sys := by
  obtain ⟨u, hrun⟩ := runs_after (m := csuInit imx6 true) (s := resetWithInstr 0) (by decide +kernel)
  exact ⟨_, u, hrun⟩

theorem runs_radio : ∃ w u, Runs (dtProbeTree radio 4) unprobed w u (radioWalked radio) := by
  obtain ⟨u, hrun⟩ := runs_after (m := dtProbeTree radio 4) (s := unprobed) (by decide +kernel)
  exact ⟨_, u, hrun⟩

theorem runs_strayRadio :
    ∃ w u, Runs (dtProbeTree strayRadio 4) unprobed w u (radioWalked strayRadio) := by
  obtain ⟨u, hrun⟩ := runs_after (m := dtProbeTree strayRadio 4) (s := unprobed) (by decide +kernel)
  exact ⟨_, u, hrun⟩

end Board

theorem descriptorsOk_iff_radio :
    (∀ b, ∀ d ∈ (Board.radioWalked Board.radio).table.bucket b,
        (Board.radioWalked Board.radio).DescriptorsOk Board.radio d) ↔
      ∀ b, ∀ d ∈ (Board.radioWalked Board.radio).table.bucket b,
        (Board.radioWalked Board.radio).SpecifiersFit Board.radio d := by
  obtain ⟨_, _, hcsu⟩ := Board.runs_csuInit
  obtain ⟨_, _, hrun⟩ := Board.runs_radio
  exact descriptorsOk_iff (isReset_resetWithInstr 0) hcsu hrun

/-- The walk completes, and the radio has the interrupt 232 of a GIC with 159, which cannot be
enabled. -/
theorem strayRadio_irq :
    (∃ w u, Runs (dtProbeTree Board.strayRadio 4) Board.unprobed w u
      (Board.radioWalked Board.strayRadio)) ∧
    (∃ d ∈ (Board.radioWalked Board.strayRadio).table.bucket (bucketOf 20),
      d.info.irqs = [⟨⟨.gic, 232⟩, 4⟩]) ∧
    ((Board.radioWalked Board.strayRadio).sys.chip .gic).numIrqs = 159 ∧
    Stops (irqEnable imx6 ⟨.gic, 232⟩) (Board.radioWalked Board.strayRadio).sys [] .panic ∧
    ¬ ∀ b, ∀ d ∈ (Board.radioWalked Board.strayRadio).table.bucket b,
      (Board.radioWalked Board.strayRadio).DescriptorsOk Board.strayRadio d := by
  have hlines : ((Board.radioWalked Board.strayRadio).sys.chip .gic).numIrqs = 159 := by
    decide +kernel
  have hfound : ∃ d ∈ (Board.radioWalked Board.strayRadio).table.bucket (bucketOf 20),
      d.info.irqs = [⟨⟨.gic, 232⟩, 4⟩] := by decide +kernel
  refine ⟨Board.runs_strayRadio, hfound, hlines, ?_, fun hall => ?_⟩
  · refine stops_irqCheckValid_bind.mpr (Or.inl ⟨?_, rfl, rfl⟩)
    rw [hlines]
    decide
  · obtain ⟨d, hd, hirqs⟩ := hfound
    obtain ⟨specs, -, hok⟩ := hall _ d hd
    rw [hirqs] at hok
    cases hok with
    | cons hfirst _ =>
      have hvalid := hfirst.valid
      rw [hlines] at hvalid
      exact absurd hvalid (by decide)

end SeCloak
