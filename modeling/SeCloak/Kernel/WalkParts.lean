import SeCloak.Kernel.Walk

/-!
# The parts of a walk

Parsing a node calls the heap, assertions and the devices of interrupt controllers. A relation that these keep is
kept by all of it (`deviceCreate_within`).
-/

namespace SeCloak
open Misc Misc.Code

/-- What parsing a node calls stays in `R`. -/
structure Parses (m : Machine) (probe : Nat → DtCode (Option Device)) (R : Dt → List Event → Dt → Prop) : Prop where
  closed : Closed R
  alloc : Within (onSys (SeCloak.malloc m.env)) R
  malloc : ∀ size, Within (m.malloc size) R
  asserts : ∀ (p : Prop) [Decidable p], Within (onSys (kassert m.env p)) R
  controller : ∀ phandle offset, m.fdt.nodeOffsetByPhandle phandle = some offset → Within (deviceFor probe offset) R

section Parses

variable {m : Machine} {probe : Nat → DtCode (Option Device)} {R : Dt → List Event → Dt → Prop}

theorem irqFindChip_within (hR : Closed R) (d : Device) : Within (irqFindChip d) R := by
  refine within_bind hR (within_get hR) fun s => ?_
  split
  · exact within_pure hR _
  · exact within_ite (within_throw _) (within_pure hR _)

theorem parseExtended_within (h : Parses m probe R) (irqs : FdtProp) (fuel : Nat) (index : Word)
    (infos : List IrqInfo) : Within (parseExtended m probe irqs fuel index infos) R := by
  have hR := h.closed
  induction fuel generalizing index infos with
  | zero => exact within_throw _
  | succ fuel ih =>
    rw [parseExtended]
    refine within_ite ?_ ?_
    · cases hphandle : m.fdt.nodeOffsetByPhandle (irqs.cell index) with
      | none => exact within_pure hR _
      | some controller =>
        refine within_bind hR (h.controller _ _ hphandle) fun found => ?_
        cases found with
        | none => exact within_pure hR _
        | some d =>
          refine within_bind hR (irqFindChip_within hR d) fun listed => ?_
          cases listed with
          | none => exact within_pure hR _
          | some chip =>
            cases hcells : m.fdt.interruptCells controller with
            | none => exact within_pure hR _
            | some cells =>
              refine within_bind hR (h.malloc _) fun ok => ?_
              exact within_ite (within_pure hR _) (ih _ _)
    · exact within_bind hR (h.asserts _) fun _ => within_pure hR _

theorem dtParseInterruptsExt_within (h : Parses m probe R) (fuel node : Nat) (infos : List IrqInfo) :
    Within (dtParseInterruptsExt m probe fuel node infos) R := by
  unfold dtParseInterruptsExt
  split
  · exact within_pure h.closed _
  · exact parseExtended_within h _ _ _ _

theorem dtParseInterrupts_within (h : Parses m probe R) (fuel node : Nat) (parent : Option Device) :
    Within (dtParseInterrupts m probe fuel node parent) R := by
  have hR := h.closed
  unfold dtParseInterrupts
  cases m.fdt.interrupts node with
  | none => exact dtParseInterruptsExt_within h _ _ _
  | some irqs =>
    cases m.fdt.interruptParent (nodesFrom node parent) with
    | none => exact within_pure hR _
    | some phandle =>
      cases hcontroller : m.fdt.nodeOffsetByPhandle phandle with
      | none =>
        simp only [hcontroller]
        exact within_pure hR _
      | some controller =>
        cases hcells : m.fdt.interruptCells controller with
        | none =>
          simp only [hcontroller, hcells]
          exact within_pure hR _
        | some n =>
          simp only [hcontroller, hcells]
          refine within_bind hR (h.controller _ _ hcontroller) fun found => ?_
          cases found with
          | none => exact within_pure hR _
          | some d =>
            refine within_bind hR (irqFindChip_within hR d) fun listed => ?_
            cases listed with
            | none => exact within_pure hR _
            | some chip =>
              refine within_bind hR (within_require hR _) fun _ => ?_
              refine within_bind hR (h.malloc _) fun ok => ?_
              exact within_ite (within_pure hR _) (dtParseInterruptsExt_within h _ _ _)

theorem dtParseResources_within (hR : Closed R) (hmalloc : ∀ size, Within (m.malloc size) R) (node : Nat)
    (parent : Option Device) : Within (dtParseResources m node parent) R := by
  unfold dtParseResources
  split
  · exact within_pure hR _
  · split
    · exact within_throw _
    · refine within_bind hR (hmalloc _) fun ok => ?_
      exact within_ite (within_pure hR _) (within_pure hR _)

theorem dtParseSpCsu_within (hR : Closed R) (hmalloc : ∀ size, Within (m.malloc size) R) (node : Nat) :
    Within (dtParseSpCsu m node) R := by
  unfold dtParseSpCsu
  split
  · exact within_pure hR _
  · refine within_bind hR (hmalloc _) fun ok => ?_
    exact within_ite (within_pure hR _) (within_pure hR _)

theorem dtParseSpClass_within (hR : Closed R) (hmalloc : ∀ size, Within (m.malloc size) R) (node : Nat) :
    Within (dtParseSpClass m node) R := by
  unfold dtParseSpClass
  split
  · exact within_pure hR _
  · refine within_bind hR (hmalloc _) fun ok => ?_
    refine within_ite (within_pure hR _) ?_
    split
    · exact within_throw _
    · exact within_pure hR _

theorem deviceParse_within (h : Parses m probe R) (fuel node : Nat) (parent : Option Device) :
    Within (deviceParse m probe fuel node parent) R := by
  have hR := h.closed
  refine within_bind hR h.alloc fun ok => ?_
  refine within_bind hR (within_require hR _) fun _ => ?_
  refine within_bind hR (dtParseResources_within hR h.malloc node parent) fun resources => ?_
  refine within_bind hR (dtParseInterrupts_within h fuel node parent) fun irqs => ?_
  refine within_bind hR (dtParseSpCsu_within hR h.malloc node) fun csu => ?_
  refine within_bind hR (dtParseSpClass_within hR h.malloc node) fun classes => ?_
  split
  · exact within_pure hR _
  · exact within_throw _

theorem deviceCreate_within (h : Parses m probe R) (fuel node : Nat) (parent : Option Device) (strict : Bool) :
    Within (deviceCreate m probe fuel node parent strict) R := by
  refine within_ite (within_pure h.closed _) ?_
  exact within_bind h.closed (deviceParse_within h fuel node parent) fun _ => within_pure h.closed _

end Parses

end SeCloak
