import Mathlib.Algebra.Group.Nat.Defs
import SeCloak.State

/-!
# The device tree

What libfdt answers about the tree that the boot loader leaves in non-secure memory. A property is
a pointer into the tree with a length; the kernel reads its cells through the pointer, so that a
read past the length meets the bytes that follow in the tree.
-/

namespace SeCloak
open Misc

/-- A property as `fdt_getprop` returns it, with the memory relative to its first byte. The tree lies
in `MEM_AREA_RAM_NSEC`, of `0x3B800000` bytes. -/
structure FdtProp where
  len : Nat
  mem : Word → Byte
  len_lt : len < 2 ^ 30

namespace FdtProp

/-- `fdt32_to_cpu(p[i])`. -/
def cell (p : FdtProp) (i : Word) : Word :=
  p.mem (4 * i) ++ p.mem (4 * i + 1) ++ p.mem (4 * i + 2) ++ p.mem (4 * i + 3)

/-- The bytes of the property. -/
def value (p : FdtProp) : List Byte := (List.range p.len).map fun i => p.mem (BitVec.ofNat 32 i)

@[simp] theorem length_value (p : FdtProp) : p.value.length = p.len := by
  simp [value]

end FdtProp

/-- `strncmp(st, name, len) == 0` for the `len` bytes at `st` and a name with its NUL. -/
def strncmpEq : List Byte → List Byte → Bool
  | [], _ => true
  | _, [] => true
  | b :: bs, c :: cs => decide (b = c) && (decide (c = 0) || strncmpEq bs cs)

/-- The answers of libfdt: a node is the offset of its tag in the structure block. -/
structure Fdt where
  getprop : Nat → String → Option FdtProp
  /-- `fdt_node_check_compatible` is 0 -/
  compatible : Nat → CString → Bool
  phandle : Nat → Word
  nodeOffsetByPhandle : Word → Option Nat
  parentOffset : Nat → Option Nat
  subnodes : Nat → List Nat
  root : Option Nat

namespace Fdt

/-- `FDT_ERR_BADNCELLS` (`libfdt.h`). -/
def errBadncells : Int := 14

/-- `fdt_address_cells` (`fdt_addresses.c:58-76`). -/
def addressCells (fdt : Fdt) (node : Nat) : Int :=
  match fdt.getprop node "#address-cells" with
  | none => 2
  | some ac =>
    if ac.len ≠ 4 then -errBadncells
    else
      let val := (ac.cell 0).toInt
      if val ≤ 0 ∨ val > 4 then -errBadncells else val

/-- `fdt_size_cells` (`fdt_addresses.c:78-96`). -/
def sizeCells (fdt : Fdt) (node : Nat) : Int :=
  match fdt.getprop node "#size-cells" with
  | none => 2
  | some sc =>
    if sc.len ≠ 4 then -errBadncells
    else
      let val := (sc.cell 0).toInt
      if val < 0 ∨ val > 4 then -errBadncells else val

/-- `_fdt_get_status` is `DT_STATUS_DISABLED` (`core/kernel/dt.c:97-114`). -/
def disabled (fdt : Fdt) (node : Nat) : Bool :=
  match fdt.getprop node "status" with
  | none => false
  | some st =>
    !(strncmpEq st.value (ascii ['o', 'k'] ++ [0]) ||
      strncmpEq st.value (ascii ['o', 'k', 'a', 'y'] ++ [0]))

/-- `is_simple_bus` of `device_create` (`dt.c:75-79` and `dt.c:322-327`). -/
def simpleBus (fdt : Fdt) (node : Nat) : Bool :=
  [ascii ['s', 'i', 'm', 'p', 'l', 'e', '-', 'b', 'u', 's'],
    ascii ['s', 'i', 'm', 'p', 'l', 'e', '-', 'm', 'f', 'd'], ascii ['i', 's', 'a']].any
    (fdt.compatible node)

end Fdt

end SeCloak
