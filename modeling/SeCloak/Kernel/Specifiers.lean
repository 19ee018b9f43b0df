import SeCloak.Kernel.WalkChips

/-!
# Interrupt specifiers

What a node says about its interrupts, with positions and numbers that do not wrap: the specifiers
of `sp-interrupts` or `interrupts` and then those of `interrupts-extended`, in the order of the
properties. The parsers find these, and more if their own arithmetic wraps.
-/

namespace SeCloak
open Misc Misc.Code

/-! ## What a node says -/

/-- A specifier: the node of its controller, its property, its first cell there, and how many cells
the controller gives to a specifier. -/
structure Specifier where
  controller : Nat
  prop : FdtProp
  pos : Nat
  cells : Nat

namespace Specifier

/-- The cells from the first one of the specifier on. -/
def cell (sp : Specifier) (k : Nat) : Word := sp.prop.cell (BitVec.ofNat 32 (sp.pos + k))

/-- How many cells the `map` operation of the controller reads. -/
def mapCells (fdt : Fdt) (sp : Specifier) : Nat :=
  match fdt.driver sp.controller with
  | some .gic | some .gpc => 3
  | some (.gpio _) => 2
  | some .fb | some .keys | none => 0

/-- The interrupt of the controller that the specifier stands for: the GIC numbers the shared
interrupts from 32 and the private ones from 16 on. -/
def number (fdt : Fdt) (sp : Specifier) : Nat :=
  match fdt.driver sp.controller with
  | some .gic | some .gpc => (sp.cell 1).toNat + if sp.cell 0 = 0 then 32 else 16
  | some (.gpio _) => (sp.cell 0).toNat
  | some .fb | some .keys | none => 0

def flags (fdt : Fdt) (sp : Specifier) : Word :=
  match fdt.driver sp.controller with
  | some .gic | some .gpc => sp.cell 2
  | some (.gpio _) => sp.cell 1
  | some .fb | some .keys | none => 0

/-- The cells that are read for the specifier lie inside its property. -/
def Inside (fdt : Fdt) (sp : Specifier) : Prop := 4 * (sp.pos + sp.mapCells fdt) ≤ sp.prop.len

instance (fdt : Fdt) (sp : Specifier) : Decidable (sp.Inside fdt) :=
  inferInstanceAs (Decidable (_ ≤ _))

end Specifier

namespace Fdt

/-- The nodes of a device and of its ancestors. -/
def nodesOf (d : Device) : List Nat := d.ancestors.map fun dev => dev.info.node.toNat

/-- The controller of the property without phandles, and its `#interrupt-cells`. -/
def plainController (fdt : Fdt) (nodes : List Nat) : Option (Nat × Word) := do
  let phandle ← fdt.interruptParent nodes
  let controller ← fdt.nodeOffsetByPhandle phandle
  let cells ← fdt.interruptCells controller
  some (controller, cells)

/-- The specifiers of `n` cells that fit into a property. -/
def specifiersOf (irqs : FdtProp) (controller n : Nat) : List Specifier :=
  (List.range (irqs.len / (4 * n))).map fun i => ⟨controller, irqs, n * i, n⟩

/-- The specifiers of `sp-interrupts` or `interrupts`. -/
def plainSpecifiers (fdt : Fdt) (node : Nat) (nodes : List Nat) : Option (List Specifier) :=
  match fdt.interrupts node with
  | none => some []
  | some irqs => (fdt.plainController nodes).map fun x => specifiersOf irqs x.1 x.2.toNat

/-- The specifiers of a property with phandles from the cell `pos` on. -/
def specifiersFrom (fdt : Fdt) (irqs : FdtProp) : Nat → Nat → Option (List Specifier)
  | 0, _ => some []
  | fuel + 1, pos =>
    if pos < irqs.len / 4 then do
      let controller ← fdt.nodeOffsetByPhandle (irqs.cell (BitVec.ofNat 32 pos))
      let cells ← fdt.interruptCells controller
      let rest ← fdt.specifiersFrom irqs fuel (pos + 1 + cells.toNat)
      some (⟨controller, irqs, pos + 1, cells.toNat⟩ :: rest)
    else some []

/-- The specifiers of `interrupts-extended`; a specifier takes at least the cell of its phandle. -/
def extendedSpecifiers (fdt : Fdt) (node : Nat) : Option (List Specifier) :=
  match fdt.getprop node "interrupts-extended" with
  | none => some []
  | some irqs => fdt.specifiersFrom irqs (irqs.len / 4) 0

/-- All specifiers of a device. -/
def specifiers (fdt : Fdt) (d : Device) : Option (List Specifier) := do
  let plain ← fdt.plainSpecifiers d.info.node.toNat (nodesOf d)
  let extended ← fdt.extendedSpecifiers d.info.node.toNat
  some (plain ++ extended)

/-- The size of a specifier in bytes does not wrap to one that fits into the property. -/
def PlainFits (fdt : Fdt) (node : Nat) (nodes : List Nat) : Prop :=
  ∀ irqs ∈ fdt.interrupts node, ∀ x ∈ fdt.plainController nodes,
    x.2.toNat < 2 ^ 30 ∨ irqs.len < (4 * x.2).toNat

/-- The signed index behind a specifier does not become negative. -/
def ExtendedFits (specs : List Specifier) : Prop := ∀ sp ∈ specs, sp.pos + sp.cells < 2 ^ 31

end Fdt

/-! ## What the parsers find -/

section Found

variable {m : Machine} {s s' : Dt}

/-- The chip of the controller decoded the specifier. -/
def Dt.Decoded (m : Machine) (s : Dt) (sp : Specifier) (info : IrqInfo) : Prop :=
  ∃ chip, s.ChipFor m sp.controller chip ∧
    info = sp.prop.irqInfo chip (BitVec.ofNat 32 sp.pos)

theorem Dt.Decoded.mono {sp : Specifier} {info : IrqInfo} (h : s.Decoded m sp info)
    (hgrown : s.Grown m s') : s'.Decoded m sp info := by
  obtain ⟨chip, hchip, hinfo⟩ := h
  exact ⟨chip, hgrown _ _ hchip, hinfo⟩

/-- The interrupts are those of the specifiers, or there are more because something wrapped. -/
def Dt.Found (m : Machine) (s : Dt) (fits : Prop) (specs : List Specifier) (infos : List IrqInfo) :
    Prop :=
  (fits ∧ List.Forall₂ (s.Decoded m) specs infos) ∨ (¬ fits ∧ specs.length < infos.length)

variable {fits fits' : Prop} {specs specs' : List Specifier} {infos infos' : List IrqInfo}

theorem Dt.Found.mono (h : s.Found m fits specs infos) (hgrown : s.Grown m s') :
    s'.Found m fits specs infos := by
  rcases h with ⟨hfits, hall⟩ | hmore
  · exact Or.inl ⟨hfits, hall.imp fun _ _ hdecoded => hdecoded.mono hgrown⟩
  · exact Or.inr hmore

theorem Dt.Found.length_le (h : s.Found m fits specs infos) : specs.length ≤ infos.length := by
  rcases h with ⟨-, hall⟩ | ⟨-, hlt⟩
  · exact hall.length_eq.le
  · exact hlt.le

theorem Dt.Found.append (h : s.Found m fits specs infos) (h' : s.Found m fits' specs' infos') :
    s.Found m (fits ∧ fits') (specs ++ specs') (infos ++ infos') := by
  rcases h with ⟨hfits, hall⟩ | ⟨hfits, hlt⟩
  · rcases h' with ⟨hfits', hall'⟩ | ⟨hfits', hlt'⟩
    · exact Or.inl ⟨⟨hfits, hfits'⟩, List.rel_append hall hall'⟩
    · refine Or.inr ⟨fun h => hfits' h.2, ?_⟩
      rw [List.length_append, List.length_append, hall.length_eq]
      exact Nat.add_lt_add_left hlt' _
  · refine Or.inr ⟨fun h => hfits h.1, ?_⟩
    rw [List.length_append, List.length_append]
    exact Nat.add_lt_add_of_lt_of_le hlt h'.length_le

theorem Dt.found_congr (hfits : fits ↔ fits') :
    s.Found m fits specs infos ↔ s.Found m fits' specs infos := by
  unfold Dt.Found
  rw [hfits]

end Found

end SeCloak
