import Mathlib.Algebra.Group.Nat.Defs
import SeCloak.State

/-!
# The device tree in memory (`fdt.c`)

A device tree is a header, a structure block of tags, and a block of strings. The functions here find
the next tag and the next node, and check what they read against the size of the structure block. An
offset is an `int` in the source; sums with lengths are unsigned.
-/

namespace SeCloak
open Misc

/-- A device tree at the address `fdt`. -/
structure Blob where
  fdt : Word
  mem : Word → Byte

/-! ## Constants (`fdt.h:95-103`, `libfdt.h:61-103`) -/

def fdtBeginNode : Word := 0x1
def fdtEndNode : Word := 0x2
def fdtProp : Word := 0x3
def fdtNop : Word := 0x4
def fdtEnd : Word := 0x9

def fdtErrNotfound : Word := 1
def fdtErrBadoffset : Word := 4
def fdtErrBadphandle : Word := 6
def fdtErrBadstate : Word := 7
def fdtErrTruncated : Word := 8
def fdtErrBadmagic : Word := 9
def fdtErrBadversion : Word := 10
def fdtErrBadstructure : Word := 11
def fdtErrInternal : Word := 13

/-- `FDT_TAGALIGN` (`libfdt_internal.h:55-56`). -/
def fdtTagalign (x : Word) : Word := (x + 4 - 1) &&& ~~~(4 - 1)

namespace Blob

/-- `fdt32_to_cpu` of the word at `p`. -/
def fdt32 (b : Blob) (p : Word) : Word := b.mem p ++ b.mem (p + 1) ++ b.mem (p + 2) ++ b.mem (p + 3)

/-! The fields of `struct fdt_header` (`fdt.h:57-74`). -/

def magic (b : Blob) : Word := b.fdt32 b.fdt
def offDtStruct (b : Blob) : Word := b.fdt32 (b.fdt + 8)
def offDtStrings (b : Blob) : Word := b.fdt32 (b.fdt + 12)
def version (b : Blob) : Word := b.fdt32 (b.fdt + 20)
def lastCompVersion (b : Blob) : Word := b.fdt32 (b.fdt + 24)
def sizeDtStruct (b : Blob) : Word := b.fdt32 (b.fdt + 36)

/-- `fdt_check_header` (`fdt.c:58-75`). -/
def checkHeader (b : Blob) : Word :=
  if b.magic = 0xd00dfeed then
    if b.version < 0x10 then -fdtErrBadversion
    else if 0x11 < b.lastCompVersion then -fdtErrBadversion
    else 0
  else if b.magic = ~~~0xd00dfeed then
    if b.sizeDtStruct = 0 then -fdtErrBadstate else 0
  else -fdtErrBadmagic

/-- `_fdt_offset_ptr` (`libfdt_internal.h:69-72`). -/
def ptr (b : Blob) (offset : Word) : Word := b.fdt + b.offDtStruct + offset

/-- `fdt_offset_ptr` (`fdt.c:77-91`). -/
def offsetPtr (b : Blob) (offset len : Word) : Option Word :=
  if 0x11 ≤ b.version ∧ (offset + len < offset ∨ b.sizeDtStruct < offset + len) then none
  else if b.ptr offset + len < b.ptr offset then none
  else some (b.ptr offset)

/-- The loop over the name in `fdt_next_tag` (`fdt.c:111-113`): the offset behind its NUL. -/
def skipName (b : Blob) : Nat → Word → Option Word
  | 0, _ => none
  | fuel + 1, offset =>
    match b.offsetPtr offset 1 with
    | none => none
    | some p => if b.mem p = 0 then some (offset + 1) else b.skipName fuel (offset + 1)

/-- Where a tag at `offset - 4` ends, with its name or value (`fdt.c:108-136`). -/
def tagEnd (b : Blob) (tag offset : Word) : Option Word :=
  if tag = fdtBeginNode then b.skipName (2 ^ 32) offset
  else if tag = fdtProp then
    match b.offsetPtr offset 4 with
    | none => none
    | some lenp => some (offset + (8 + b.fdt32 lenp))
  else if tag = fdtEnd ∨ tag = fdtEndNode ∨ tag = fdtNop then some offset
  else none

/-- `fdt_next_tag` (`fdt.c:93-141`): the tag, and the next offset or an error. -/
def nextTag (b : Blob) (startoffset : Word) : Word × Word :=
  match b.offsetPtr startoffset 4 with
  | none => (fdtEnd, -fdtErrTruncated)
  | some tagp =>
    match b.tagEnd (b.fdt32 tagp) (startoffset + 4) with
    | none => (fdtEnd, -fdtErrBadstructure)
    | some offset =>
      match b.offsetPtr startoffset (offset - startoffset) with
      | none => (fdtEnd, -fdtErrBadstructure)
      | some _ => (b.fdt32 tagp, fdtTagalign offset)

/-- `_fdt_check_node_offset` and `_fdt_check_prop_offset` (`fdt.c:143-159`). -/
def checkOffset (b : Blob) (tag offset : Word) : Word :=
  if offset.toInt < 0 ∨ offset % 4 ≠ 0 ∨ (b.nextTag offset).1 ≠ tag then -fdtErrBadoffset
  else (b.nextTag offset).2

def checkNodeOffset (b : Blob) (offset : Word) : Word := b.checkOffset fdtBeginNode offset

def checkPropOffset (b : Blob) (offset : Word) : Word := b.checkOffset fdtProp offset

/-- The loop of `fdt_next_node` (`fdt.c:170-196`), from the offset `nextoffset`. There is no result if
it does not end. -/
def nextNodeFrom (b : Blob) : Nat → Word → Option Int → Option (Word × Option Int)
  | 0, _, _ => none
  | fuel + 1, offset, depth =>
    match b.nextTag offset with
    | (tag, nextoffset) =>
      if tag = fdtProp ∨ tag = fdtNop then b.nextNodeFrom fuel nextoffset depth
      else if tag = fdtBeginNode then some (offset, depth.map (· + 1))
      else if tag = fdtEndNode then
        if ∃ d ∈ depth, d - 1 < 0 then some (nextoffset, depth.map (· - 1))
        else b.nextNodeFrom fuel nextoffset (depth.map (· - 1))
      else if 0 ≤ nextoffset.toInt ∨ (nextoffset = -fdtErrTruncated ∧ depth = none) then
        some (-fdtErrNotfound, depth)
      else some (nextoffset, depth)

/-- `fdt_next_node` (`fdt.c:161-199`), with the depth if there is a pointer to it. -/
def nextNode (b : Blob) (fuel : Nat) (offset : Word) (depth : Option Int) : Option (Word × Option Int) :=
  if 0 ≤ offset.toInt then
    if (b.checkNodeOffset offset).toInt < 0 then some (b.checkNodeOffset offset, depth)
    else b.nextNodeFrom fuel (b.checkNodeOffset offset) depth
  else b.nextNodeFrom fuel 0 depth

/-- `fdt_first_subnode` (`fdt.c:201-210`). -/
def firstSubnode (b : Blob) (fuel : Nat) (offset : Word) : Option Word :=
  (b.nextNode fuel offset (some 0)).map fun (offset, depth) =>
    if offset.toInt < 0 ∨ depth ≠ some 1 then -fdtErrNotfound else offset

/-- The loop of `fdt_next_subnode` (`fdt.c:220-224`). -/
def nextSubnodeFrom (b : Blob) : Nat → Word → Int → Option Word
  | 0, _, _ => none
  | fuel + 1, offset, depth =>
    match b.nextNode fuel offset (some depth) with
    | none => none
    | some (offset, depth) =>
      if offset.toInt < 0 ∨ depth.getD 0 < 1 then some (-fdtErrNotfound)
      else if 1 < depth.getD 0 then b.nextSubnodeFrom fuel offset (depth.getD 0)
      else some offset

/-- `fdt_next_subnode` (`fdt.c:212-227`). -/
def nextSubnode (b : Blob) (fuel : Nat) (offset : Word) : Option Word := b.nextSubnodeFrom fuel offset 1

end Blob

end SeCloak
