import SeCloak.Libfdt.Blob

/-!
# Queries of a device tree (`fdt_ro.c`)

The queries walk the structure block with the functions of `fdt.c`. Each loop has a bound on its rounds,
and no result if it needs more. `strlen` and `memcmp` read the memory at their pointers.
-/

namespace SeCloak
open Misc

namespace Blob

/-- The rest of the loop `fdt_for_each_subnode` (`drivers/dt.h:8-11`): the offsets that its body gets. -/
def subnodesFrom (b : Blob) : Nat → Word → Option (List Word)
  | 0, _ => none
  | fuel + 1, node =>
    if node.toInt < 0 then some []
    else (b.nextSubnode fuel node).bind fun next => (b.subnodesFrom fuel next).map (node :: ·)

def forEachSubnode (b : Blob) (fuel : Nat) (parent : Word) : Option (List Word) :=
  (b.firstSubnode fuel parent).bind (b.subnodesFrom fuel)

/-- The loop of `fdt_supernode_atdepth_offset` (`fdt_ro.c:420-442`), with what it leaves in `*nodedepth`. -/
def supernodeFrom (b : Blob) (nodeoffset : Word) (supernodedepth : Int) :
    Nat → Word → Int → Word → Option (Word × Option Int)
  | 0, _, _, _ => none
  | fuel + 1, offset, depth, supernodeoffset =>
    if 0 ≤ offset.toInt ∧ offset.toInt ≤ nodeoffset.toInt then
      let supernodeoffset := if depth = supernodedepth then offset else supernodeoffset
      if offset = nodeoffset then
        some (if supernodedepth > depth then -fdtErrNotfound else supernodeoffset, some depth)
      else
        (b.nextNode fuel offset (some depth)).bind fun next =>
          b.supernodeFrom nodeoffset supernodedepth fuel next.1 (next.2.getD 0) supernodeoffset
    else if offset = -fdtErrNotfound ∨ 0 ≤ offset.toInt then some (-fdtErrBadoffset, none)
    else if offset = -fdtErrBadoffset then some (-fdtErrBadstructure, none)
    else some (offset, none)

/-- `fdt_supernode_atdepth_offset` (`fdt_ro.c:409-443`). -/
def supernodeAtdepthOffset (b : Blob) (fuel : Nat) (nodeoffset : Word) (supernodedepth : Int) :
    Option (Word × Option Int) :=
  if b.checkHeader ≠ 0 then some (b.checkHeader, none)
  else if supernodedepth < 0 then some (-fdtErrNotfound, none)
  else b.supernodeFrom nodeoffset supernodedepth fuel 0 0 (-fdtErrInternal)

/-- `fdt_node_depth` (`fdt_ro.c:445-454`). -/
def nodeDepth (b : Blob) (fuel : Nat) (nodeoffset : Word) : Option Int :=
  (b.supernodeAtdepthOffset fuel nodeoffset 0).map fun (err, nodedepth) =>
    if err ≠ 0 then (if err.toInt < 0 then err.toInt else (-fdtErrInternal).toInt) else nodedepth.getD 0

/-- `fdt_parent_offset` (`fdt_ro.c:456-464`). -/
def parentOffset (b : Blob) (fuel : Nat) (nodeoffset : Word) : Option Word :=
  (b.nodeDepth fuel nodeoffset).bind fun nodedepth =>
    if nodedepth < 0 then some (BitVec.ofInt 32 nodedepth)
    else (b.supernodeAtdepthOffset fuel nodeoffset (nodedepth - 1)).map Prod.fst

/-! ## Properties -/

/-- `_nextprop` (`fdt_ro.c:108-130`). -/
def nextprop (b : Blob) : Nat → Word → Option Word
  | 0, _ => none
  | fuel + 1, offset =>
    match b.nextTag offset with
    | (tag, nextoffset) =>
      if tag = fdtEnd then some (if 0 ≤ nextoffset.toInt then -fdtErrBadstructure else nextoffset)
      else if tag = fdtProp then some offset
      else if tag = fdtNop then b.nextprop fuel nextoffset
      else some (-fdtErrNotfound)

/-- `fdt_first_property_offset` (`fdt_ro.c:221-229`). -/
def firstPropertyOffset (b : Blob) (fuel : Nat) (nodeoffset : Word) : Option Word :=
  if (b.checkNodeOffset nodeoffset).toInt < 0 then some (b.checkNodeOffset nodeoffset)
  else b.nextprop fuel (b.checkNodeOffset nodeoffset)

/-- `fdt_next_property_offset` (`fdt_ro.c:231-237`). -/
def nextPropertyOffset (b : Blob) (fuel : Nat) (offset : Word) : Option Word :=
  if (b.checkPropOffset offset).toInt < 0 then some (b.checkPropOffset offset)
  else b.nextprop fuel (b.checkPropOffset offset)

/-- `fdt_get_property_by_offset` (`fdt_ro.c:239-258`): the address of the property and its length, or an
error. -/
def getPropertyByOffset (b : Blob) (offset : Word) : Except Word (Word × Word) :=
  if (b.checkPropOffset offset).toInt < 0 then .error (b.checkPropOffset offset)
  else .ok (b.ptr offset, b.fdt32 (b.ptr offset + 4))

/-- `strlen` of the string at `p`. -/
def strlen (b : Blob) : Nat → Word → Option Nat
  | 0, _ => none
  | fuel + 1, p => if b.mem p = 0 then some 0 else (b.strlen fuel (p + 1)).map (· + 1)

/-- `memcmp` of the bytes at `p` and the string `s` is 0. -/
def memcmpEq (b : Blob) (p : Word) (s : List Byte) : Bool :=
  decide ((List.range s.length).map (fun i => b.mem (p + BitVec.ofNat 32 i)) = s)

/-- `fdt_string` (`fdt_ro.c:78-81`). -/
def string (b : Blob) (stroffset : Word) : Word := b.fdt + b.offDtStrings + stroffset

/-- `_fdt_string_eq` (`fdt_ro.c:83-89`). -/
def stringEq (b : Blob) (fuel : Nat) (stroffset : Word) (s : CString) : Option Bool :=
  (b.strlen fuel (b.string stroffset)).map fun len =>
    decide (len = s.length) && b.memcmpEq (b.string stroffset) s

/-- The loop of `fdt_get_property_namelen` (`fdt_ro.c:265-281`). -/
def getPropertyFrom (b : Blob) (name : CString) : Nat → Word → Option (Except Word (Word × Word))
  | 0, _ => none
  | fuel + 1, offset =>
    if offset.toInt < 0 then some (.error offset)
    else
      match b.getPropertyByOffset offset with
      | .error _ => some (.error (-fdtErrInternal))
      | .ok prop =>
        (b.stringEq fuel (b.fdt32 (prop.1 + 8)) name).bind fun eq =>
          if eq then some (.ok prop)
          else (b.nextPropertyOffset fuel offset).bind (b.getPropertyFrom name fuel)

/-- `fdt_get_property_namelen` (`fdt_ro.c:260-282`). -/
def getPropertyNamelen (b : Blob) (fuel : Nat) (offset : Word) (name : CString) :
    Option (Except Word (Word × Word)) :=
  (b.firstPropertyOffset fuel offset).bind (b.getPropertyFrom name fuel)

/-- `fdt_getprop` (`fdt_ro.c:292-321`): the address of the value and its length. -/
def getprop (b : Blob) (fuel : Nat) (nodeoffset : Word) (name : CString) : Option (Except Word (Word × Word)) :=
  (b.getPropertyNamelen fuel nodeoffset name).map fun prop => prop.map fun (p, len) => (p + 12, len)

/-- A property of one cell. -/
def getCell (b : Blob) (prop : Except Word (Word × Word)) : Option Word :=
  match prop with
  | .ok (php, len) => if len = 4 then some (b.fdt32 php) else none
  | .error _ => none

/-- `fdt_get_phandle` (`fdt_ro.c:323-338`). -/
def getPhandle (b : Blob) (fuel : Nat) (nodeoffset : Word) : Option Word :=
  (b.getprop fuel nodeoffset (ascii ['p', 'h', 'a', 'n', 'd', 'l', 'e'])).bind fun prop =>
    match b.getCell prop with
    | some php => some php
    | none =>
      (b.getprop fuel nodeoffset
        (ascii ['l', 'i', 'n', 'u', 'x', ',', 'p', 'h', 'a', 'n', 'd', 'l', 'e'])).map fun prop =>
        (b.getCell prop).getD 0

/-- The loop of `fdt_node_offset_by_phandle`: `found` is an offset or an error to return, if there is one at a
node. -/
def findNode (b : Blob) (found : Nat → Word → Option (Option Word)) : Nat → Word → Option Word
  | 0, _ => none
  | fuel + 1, offset =>
    if offset.toInt < 0 then some offset
    else
      (found fuel offset).bind fun result =>
        match result with
        | some r => some r
        | none => (b.nextNode fuel offset none).bind fun next => b.findNode found fuel next.1

/-- `fdt_node_offset_by_phandle` (`fdt_ro.c:493-516`). -/
def nodeOffsetByPhandle (b : Blob) (fuel : Nat) (phandle : Word) : Option Word :=
  if phandle = 0 ∨ phandle = -1 then some (-fdtErrBadphandle)
  else if b.checkHeader ≠ 0 then some b.checkHeader
  else
    (b.nextNode fuel (-1) none).bind fun next =>
      b.findNode (fun fuel offset =>
        (b.getPhandle fuel offset).map fun php => if php = phandle then some offset else none) fuel next.1

/-- `fdt_stringlist_contains` (`fdt_ro.c:518-533`), for the `listlen` bytes at `strlist`. -/
def stringlistContains (b : Blob) (str : CString) : Nat → Word → Int → Option Bool
  | 0, _, _ => none
  | fuel + 1, strlist, listlen =>
    if listlen < str.length then some false
    else if b.memcmpEq strlist (str ++ [0]) then some true
    else
      match (List.range listlen.toNat).find? (fun i => decide (b.mem (strlist + BitVec.ofNat 32 i) = 0)) with
      | none => some false
      | some i => b.stringlistContains str fuel (strlist + BitVec.ofNat 32 (i + 1)) (listlen - (i + 1))

/-- `fdt_node_check_compatible` (`fdt_ro.c:535-548`). -/
def nodeCheckCompatible (b : Blob) (fuel : Nat) (nodeoffset : Word) (compatible : CString) : Option Int :=
  (b.getprop fuel nodeoffset (ascii ['c', 'o', 'm', 'p', 'a', 't', 'i', 'b', 'l', 'e'])).bind fun prop =>
    match prop with
    | .error len => some len.toInt
    | .ok (prop, len) =>
      (b.stringlistContains compatible fuel prop len.toInt).map fun contains => if contains then 0 else 1

end Blob

end SeCloak
