import SeCloak.Drivers.DtDenials
import SeCloak.Kernel.WalkParse
import SeCloak.Misc.Limbs

/-!
# Addresses and sizes of several cells (`dt.c:107-133` and `dt.c:402-421`)

The parser stores each cell of an address and of a size; `dt_enable_device` takes the first one as
the whole number. For a number of more than one cell this is the most significant cell, which is
zero for every number below `2 ^ 32`.
-/

namespace SeCloak
open Misc Misc.Code

/-! ## What `reg` says -/

namespace FdtProp

/-- The number of `n` cells from the cell `start` on. -/
def number (p : FdtProp) (start n : Nat) : Nat :=
  ofLimbs (2 ^ 32) ((List.range n).map fun i => (p.cell (BitVec.ofNat 32 (start + i))).toNat)

/-- The address and the size of each entry of `reg`. -/
def regEntries (reg : FdtProp) (a c : Nat) : List (Nat × Nat) :=
  (List.range (reg.len / (4 * (a + c)))).map fun r =>
    (reg.number (r * (a + c)) a, reg.number (r * (a + c) + a) c)

/-- The first cell is the number if there is no other or the number is zero. -/
theorem cell_eq_number_iff {p : FdtProp} {start n : Nat} (hn : 0 < n)
    (hsmall : p.number start n < 2 ^ 32) :
    p.cell (BitVec.ofNat 32 start) = BitVec.ofNat 32 (p.number start n) ↔
      n = 1 ∨ p.number start n = 0 := by
  obtain ⟨k, rfl⟩ := Nat.exists_eq_add_of_lt hn
  have hcons : p.number start (0 + k + 1) = ofLimbs (2 ^ 32)
      ((p.cell (BitVec.ofNat 32 start)).toNat ::
        (List.range k).map fun i => (p.cell (BitVec.ofNat 32 (start + (i + 1)))).toNat) := by
    simp [number, List.range_succ_eq_map, Function.comp_def]
  rw [hcons] at hsmall ⊢
  have hhead := head_eq_ofLimbs_iff hsmall
  rw [← BitVec.toNat_inj, BitVec.toNat_ofNat, Nat.mod_eq_of_lt hsmall, hhead]
  simp

end FdtProp

/-- The region that denies all accesses to a range. -/
def denyRegion (range : Nat × Nat) : Region :=
  ⟨BitVec.ofNat 32 range.1, BitVec.ofNat 32 range.2, .denyAll⟩

/-! ## The regions of a device -/

theorem malloc_of_length_addedDenials {env : Env} {n : Nat} {rs : List Resource}
    (h : (addedDenials env n rs).length = rs.length) : ∀ i < rs.length, env.malloc (n + i) = true := by
  induction rs generalizing n with
  | nil => simp
  | cons res rs ih =>
    have hle := (addedDenials_sublist env (n + 1) rs).length_le
    rw [denialsOf, List.length_map] at hle
    unfold addedDenials at h
    by_cases hn : env.malloc n = true
    · rw [if_pos hn] at h
      intro i hi
      cases i with
      | zero => exact hn
      | succ i =>
        rw [show n + (i + 1) = n + 1 + i by omega]
        exact ih (by simpa using h) i (by simpa using hi)
    · rw [if_neg hn, List.length_cons] at h
      omega

/-- One region is added for each resource exactly if there is memory for all of them. -/
theorem addedDenials_eq_iff {env : Env} {n : Nat} {rs : List Resource} {regions : List Region}
    (hlen : regions.length = rs.length) : addedDenials env n rs = regions ↔
      (∀ i < rs.length, env.malloc (n + i) = true) ∧ denialsOf rs = regions := by
  constructor
  · rintro rfl
    have hall := malloc_of_length_addedDenials hlen
    exact ⟨hall, (addedDenials_of_malloc hall).symm⟩
  · rintro ⟨hall, rfl⟩
    exact addedDenials_of_malloc hall

section Regions

variable {m : Machine} {probe : Nat → DtCode (Option Device)} {fuel node a c : Nat}
  {p d : Device} {reg : FdtProp} {t t' : Dt}

/-- The first cells of a resource. -/
theorem resource_first (reg : FdtProp) (stale : Resource) (ha : 0 < a) (hc : 0 < c) (r : Nat) :
    (reg.resource stale a c r).address.c0 = reg.cell (BitVec.ofNat 32 (r * (a + c))) ∧
      (reg.resource stale a c r).size.c0 = reg.cell (BitVec.ofNat 32 (r * (a + c) + a)) := by
  have hstart : ((r : Int) * ((a : Int) + (c : Int))) = ((r * (a + c) : Nat) : Int) := by
    push_cast
    rfl
  simp only [FdtProp.resource, Cells.fill, Int.natCast_pos, ha, hc, if_true, Int.natCast_zero,
    Int.add_zero, hstart, BitVec.ofInt_natCast, true_and]
  rw [← Nat.cast_add, BitVec.ofInt_natCast]

/-- The resources that the parser stores, one for each entry of `reg`. -/
theorem deviceCreate_resources {strict : Bool} {w : List Event}
    (h : Runs (deviceCreate m probe fuel node (some p) strict) t w (some d) t')
    (hreg : m.fdt.getprop node "reg" = some reg)
    (ha : m.fdt.addressCells p.info.node.toNat = a) (hc : m.fdt.sizeCells p.info.node.toNat = c) :
    d.info.resources = (List.range (reg.len / (4 * (a + c)))).map (reg.resource m.stale a c) := by
  obtain ⟨parsed⟩ := deviceCreate_runs h
  rw [parsed.info, Machine.deviceInfo, dtParseResources_runs parsed.resourcesRun hreg, ha, hc]
  have hnum : ((reg.len : Int).tdiv (4 * ((a : Int) + c))).toNat = reg.len / (4 * (a + c)) := by
    rw [Int.tdiv_eq_ediv_of_nonneg (Int.natCast_nonneg _)]
    exact congrArg Int.toNat (Int.natCast_ediv reg.len (4 * (a + c))).symm
  rw [hnum]

theorem forall_mem_or_and {α : Type} {l : List α} {A C : Prop} {P Q : α → Prop} :
    (∀ x ∈ l, (A ∨ P x) ∧ (C ∨ Q x)) ↔ (A ∨ ∀ x ∈ l, P x) ∧ (C ∨ ∀ x ∈ l, Q x) := by
  by_cases hA : A <;> by_cases hC : C <;> simp [hA, hC, forall_and]

/-- The first cells are the numbers of `reg`, for addresses or sizes of one cell and for zero. -/
theorem denialsOf_eq_iff (reg : FdtProp) (stale : Resource) (ha : 0 < a) (hc : 0 < c)
    (hsmall : ∀ e ∈ reg.regEntries a c, e.1 < 2 ^ 32 ∧ e.2 < 2 ^ 32) :
    denialsOf ((List.range (reg.len / (4 * (a + c)))).map (reg.resource stale a c)) =
        (reg.regEntries a c).map denyRegion ↔
      (a = 1 ∨ ∀ e ∈ reg.regEntries a c, e.1 = 0) ∧ (c = 1 ∨ ∀ e ∈ reg.regEntries a c, e.2 = 0) := by
  have hentry : ∀ r ∈ List.range (reg.len / (4 * (a + c))),
      ((⟨(reg.resource stale a c r).address.c0, (reg.resource stale a c r).size.c0, .denyAll⟩ : Region) =
        denyRegion (reg.number (r * (a + c)) a, reg.number (r * (a + c) + a) c) ↔
      (a = 1 ∨ reg.number (r * (a + c)) a = 0) ∧ (c = 1 ∨ reg.number (r * (a + c) + a) c = 0)) := by
    intro r hr
    obtain ⟨haddr, hsize⟩ := hsmall _ (List.mem_map_of_mem hr)
    obtain ⟨hfirst, hfirst'⟩ := resource_first reg stale ha hc r
    rw [hfirst, hfirst', denyRegion, Region.mk.injEq, FdtProp.cell_eq_number_iff ha haddr,
      FdtProp.cell_eq_number_iff hc hsize]
    simp
  unfold denialsOf FdtProp.regEntries
  rw [List.map_map, List.map_map, List.map_inj_left, List.forall_mem_map, List.forall_mem_map,
    ← forall_mem_or_and]
  exact forall₂_congr hentry

/-- The regions that a device gets when it is disabled are the numbers of its `reg` exactly if there
is memory for all of them, and every address and every size of more than one cell is zero. -/
theorem regions_numeric_iff {strict : Bool} {w w' : List Event} {env : Env} {s s' : Sys} {r : Bool}
    (hcreate : Runs (deviceCreate m probe fuel node (some p) strict) t w (some d) t')
    (hreg : m.fdt.getprop node "reg" = some reg)
    (ha : m.fdt.addressCells p.info.node.toNat = a) (ha' : 0 < a)
    (hc : m.fdt.sizeCells p.info.node.toNat = c) (hc' : 0 < c)
    (hsmall : ∀ e ∈ reg.regEntries a c, e.1 < 2 ^ 32 ∧ e.2 < 2 ^ 32)
    (hdisable : Runs (dtEnableDevice env d false) s w' r s')
    (hprot : d.canProtect = true) (hon : s.enabled d = true) :
    s'.regions = ((reg.regEntries a c).map denyRegion).reverse ++ s.regions ↔
      (∀ i < (reg.regEntries a c).length, env.malloc (s.allocs + i) = true) ∧
        (a = 1 ∨ ∀ e ∈ reg.regEntries a c, e.1 = 0) ∧
        (c = 1 ∨ ∀ e ∈ reg.regEntries a c, e.2 = 0) := by
  have hlen : ((reg.regEntries a c).map denyRegion).length = d.info.resources.length := by
    rw [deviceCreate_resources hcreate hreg ha hc]
    simp [FdtProp.regEntries]
  rw [dtDisableDevice_regions hdisable hprot hon, List.append_cancel_right_eq, List.reverse_inj,
    addedDenials_eq_iff hlen, ← denialsOf_eq_iff reg m.stale ha' hc' hsmall,
    deviceCreate_resources hcreate hreg ha hc]
  simp [FdtProp.regEntries]

end Regions

namespace Board

/-- A property of cells. -/
def cells (cs : List Word) (h : 4 * cs.length < 2 ^ 30) : FdtProp where
  len := 4 * cs.length
  mem off := ((cs.getD (off.toNat / 4) 0) >>> (8 * (3 - off.toNat % 4))).setWidth 8
  len_lt := h

/-- A property without a value. -/
def noCells : FdtProp := cells [] (by decide)

/-- A radio on a bus that does not say how many cells its addresses and sizes have. -/
def wideTree : Fdt where
  getprop node name :=
    if node = 20 then
      if name = "reg" then some (cells [0, 0x02190000, 0, 0x4000] (by decide))
      else if name = "sp-csu" then some (cells [12] (by decide))
      else if name = "compatible" then some noCells
      else none
    else none
  compatible _ _ := false
  phandle _ := 0
  nodeOffsetByPhandle _ := none
  parentOffset node := if node = 20 then some 0 else none
  subnodes _ := []
  root := some 0

def noHardware : Hardware where
  maxIt := 159
  gpioVaddr _ := none
  gpioRegs _ := {}
  fbMapped := false
  fbCpmem := none
  fbWords _ := 0
  keyNodes _ _ := []

def wideMachine : Machine where
  env := imx6
  fdt := wideTree
  hw := noHardware

/-- The radio that is created from the tree. -/
def wide : Device :=
  .child { node := 20, resourceType := .mem, csu := [12],
           resources := [⟨⟨0, 0x02190000, 0, 0⟩, ⟨0, 0x4000, 0, 0⟩⟩] } soc

theorem wide_created : ∃ w t', Runs (deviceCreate wideMachine (fun _ => pure none) 0 20 (some soc) true)
    ⟨booted imx6 0, table, {}⟩ w (some wide) t' := by
  obtain ⟨w, d, t', hrun, rfl⟩ := runs_of_out (f := id) (b := some wide)
    (m := deviceCreate wideMachine (fun _ => pure none) 0 20 (some soc) true)
    (s := ⟨booted imx6 0, table, {}⟩) (by decide +kernel)
  exact ⟨w, t', hrun⟩

def wideReg : FdtProp := cells [0, 0x02190000, 0, 0x4000] (by decide)

def wideDenied : Sys := (dtEnableDevice imx6 wide false).after (booted imx6 0)

theorem wide_disabled :
    ∃ w r, Runs (dtEnableDevice imx6 wide false) (booted imx6 0) w r wideDenied := by
  obtain ⟨r, hrun⟩ := runs_after (m := dtEnableDevice imx6 wide false) (s := booted imx6 0)
    (by decide +kernel)
  exact ⟨_, r, hrun⟩

end Board

theorem regions_numeric_iff_wide :
    Board.wideDenied.regions =
        ((Board.wideReg.regEntries 2 2).map denyRegion).reverse ++ (Board.booted imx6 0).regions ↔
      (∀ i < (Board.wideReg.regEntries 2 2).length,
          imx6.malloc ((Board.booted imx6 0).allocs + i) = true) ∧
        (2 = 1 ∨ ∀ e ∈ Board.wideReg.regEntries 2 2, e.1 = 0) ∧
        (2 = 1 ∨ ∀ e ∈ Board.wideReg.regEntries 2 2, e.2 = 0) := by
  obtain ⟨_, _, hcreate⟩ := Board.wide_created
  obtain ⟨_, _, hdisable⟩ := Board.wide_disabled
  exact regions_numeric_iff hcreate rfl rfl (by decide) rfl (by decide) (by decide +kernel) hdisable
    (by decide) (by decide +kernel)

/-- The region of the radio is empty and starts at zero, because both cells count. -/
theorem regions_wide :
    (∃ w t', Runs (deviceCreate Board.wideMachine (fun _ => pure none) 0 20 (some Board.soc) true)
        ⟨Board.booted imx6 0, Board.table, {}⟩ w (some Board.wide) t') ∧
      (∃ w r, Runs (dtEnableDevice imx6 Board.wide false) (Board.booted imx6 0) w r
        Board.wideDenied) ∧
      Board.wideReg.regEntries 2 2 = [(0x02190000, 0x4000)] ∧
      Board.wideDenied.regions = ⟨0, 0, .denyAll⟩ :: (Board.booted imx6 0).regions ∧
      ¬ Board.wideDenied.regions = ((Board.wideReg.regEntries 2 2).map denyRegion).reverse ++
        (Board.booted imx6 0).regions :=
  ⟨Board.wide_created, Board.wide_disabled, by decide +kernel, by decide +kernel, by decide +kernel⟩

end SeCloak
