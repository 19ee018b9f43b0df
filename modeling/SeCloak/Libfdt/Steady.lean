import SeCloak.Libfdt.Answers

/-!
# The answers of libfdt in a bounded number of rounds

A query that has a result keeps it with more rounds of its loops. So the answers about a memory can be
computed (`answersWithin_eq`).
-/

namespace SeCloak
open Misc

namespace Blob

variable {b : Blob}

/-! ## Nodes -/

theorem nextNodeFrom_steady (n : Nat) (offset : Word) (depth : Option Int) :
    Refines (b.nextNodeFrom n offset depth) (b.nextNodeFrom (n + 1) offset depth) := by
  induction n generalizing offset depth with
  | zero => exact refines_none
  | succ n ih =>
    rw [nextNodeFrom, nextNodeFrom]
    refine refines_ite (ih _ _) (refines_ite (.refl _) (refines_ite ?_ (.refl _)))
    exact refines_ite (.refl _) (ih _ _)

theorem nextNode_steady (offset : Word) (depth : Option Int) :
    Steady fun fuel => b.nextNode fuel offset depth := fun n =>
  refines_ite (refines_ite (.refl _) (nextNodeFrom_steady n _ _)) (nextNodeFrom_steady n _ _)

theorem firstSubnode_steady (offset : Word) : Steady fun fuel => b.firstSubnode fuel offset :=
  fun n => (nextNode_steady offset (some 0) n).map _

theorem nextSubnodeFrom_steady (n : Nat) (offset : Word) (depth : Int) :
    Refines (b.nextSubnodeFrom n offset depth) (b.nextSubnodeFrom (n + 1) offset depth) := by
  induction n generalizing offset depth with
  | zero => exact refines_none
  | succ n ih =>
    intro r hr
    rw [nextSubnodeFrom] at hr ⊢
    cases hnext : b.nextNode n offset (some depth) with
    | none => simp [hnext] at hr
    | some next =>
      have hmore : b.nextNode (n + 1) offset (some depth) = some next := nextNode_steady _ _ n next hnext
      rw [hnext] at hr
      rw [hmore]
      exact refines_ite (.refl _) (refines_ite (ih _ _) (.refl _)) r hr

theorem subnodesFrom_steady (n : Nat) (node : Word) :
    Refines (b.subnodesFrom n node) (b.subnodesFrom (n + 1) node) := by
  induction n generalizing node with
  | zero => exact refines_none
  | succ n ih =>
    rw [subnodesFrom, subnodesFrom]
    refine refines_ite (.refl _) (Refines.bind ?_ fun next => (ih next).map _)
    exact nextSubnodeFrom_steady n node 1

theorem forEachSubnode_steady (parent : Word) : Steady fun fuel => b.forEachSubnode fuel parent :=
  fun n => (firstSubnode_steady parent n).bind fun next => subnodesFrom_steady n next

theorem supernodeFrom_steady (nodeoffset : Word) (k : Int) (n : Nat) (offset : Word) (depth : Int)
    (supernodeoffset : Word) : Refines (b.supernodeFrom nodeoffset k n offset depth supernodeoffset)
      (b.supernodeFrom nodeoffset k (n + 1) offset depth supernodeoffset) := by
  induction n generalizing offset depth supernodeoffset with
  | zero => exact refines_none
  | succ n ih =>
    rw [supernodeFrom, supernodeFrom]
    refine refines_ite (refines_ite (.refl _) ?_) (.refl _)
    exact (nextNode_steady offset (some depth) n).bind fun next => ih _ _ _

theorem supernodeAtdepthOffset_steady (nodeoffset : Word) (k : Int) :
    Steady fun fuel => b.supernodeAtdepthOffset fuel nodeoffset k := fun n =>
  refines_ite (.refl _) (refines_ite (.refl _) (supernodeFrom_steady nodeoffset k n _ _ _))

theorem nodeDepth_steady (nodeoffset : Word) : Steady fun fuel => b.nodeDepth fuel nodeoffset :=
  fun n => (supernodeAtdepthOffset_steady nodeoffset 0 n).map _

theorem parentOffset_steady (nodeoffset : Word) : Steady fun fuel => b.parentOffset fuel nodeoffset :=
  fun n => (nodeDepth_steady nodeoffset n).bind fun nodedepth =>
    refines_ite (.refl _) ((supernodeAtdepthOffset_steady nodeoffset (nodedepth - 1) n).map _)

/-! ## Properties -/

theorem nextprop_steady (n : Nat) (offset : Word) :
    Refines (b.nextprop n offset) (b.nextprop (n + 1) offset) := by
  induction n generalizing offset with
  | zero => exact refines_none
  | succ n ih =>
    rw [nextprop, nextprop]
    exact refines_ite (.refl _) (refines_ite (.refl _) (refines_ite (ih _) (.refl _)))

theorem firstPropertyOffset_steady (nodeoffset : Word) :
    Steady fun fuel => b.firstPropertyOffset fuel nodeoffset := fun n =>
  refines_ite (.refl _) (nextprop_steady n _)

theorem nextPropertyOffset_steady (offset : Word) :
    Steady fun fuel => b.nextPropertyOffset fuel offset := fun n =>
  refines_ite (.refl _) (nextprop_steady n _)

theorem strlen_steady (n : Nat) (p : Word) : Refines (b.strlen n p) (b.strlen (n + 1) p) := by
  induction n generalizing p with
  | zero => exact refines_none
  | succ n ih =>
    rw [strlen, strlen]
    exact refines_ite (.refl _) ((ih _).map _)

theorem stringEq_steady (stroffset : Word) (s : CString) : Steady fun fuel => b.stringEq fuel stroffset s :=
  fun n => (strlen_steady n _).map _

theorem getPropertyFrom_steady (name : CString) (n : Nat) (offset : Word) :
    Refines (b.getPropertyFrom name n offset) (b.getPropertyFrom name (n + 1) offset) := by
  induction n generalizing offset with
  | zero => exact refines_none
  | succ n ih =>
    rw [getPropertyFrom, getPropertyFrom]
    refine refines_ite (.refl _) ?_
    cases b.getPropertyByOffset offset with
    | error e => exact .refl _
    | ok prop =>
      refine (stringEq_steady _ name n).bind fun eq => refines_ite (.refl _) ?_
      exact (nextPropertyOffset_steady offset n).bind fun next => ih next

theorem getprop_steady (nodeoffset : Word) (name : CString) :
    Steady fun fuel => b.getprop fuel nodeoffset name := fun n =>
  ((firstPropertyOffset_steady nodeoffset n).bind fun offset => getPropertyFrom_steady name n offset).map _

/-! ## Handles and strings -/

theorem getPhandle_steady (nodeoffset : Word) : Steady fun fuel => b.getPhandle fuel nodeoffset := by
  intro n
  refine (getprop_steady nodeoffset _ n).bind fun prop => ?_
  cases b.getCell prop with
  | none => exact (getprop_steady nodeoffset _ n).map _
  | some php => exact .refl _

theorem findNode_steady {found : Nat → Word → Option (Option Word)}
    (hfound : ∀ n offset, Refines (found n offset) (found (n + 1) offset)) (n : Nat) (offset : Word) :
    Refines (b.findNode found n offset) (b.findNode found (n + 1) offset) := by
  induction n generalizing offset with
  | zero => exact refines_none
  | succ n ih =>
    rw [findNode, findNode]
    refine refines_ite (.refl _) ((hfound n offset).bind fun result => ?_)
    cases result with
    | some r => exact .refl _
    | none => exact (nextNode_steady offset none n).bind fun next => ih next.1

theorem nodeOffsetByPhandle_steady (phandle : Word) :
    Steady fun fuel => b.nodeOffsetByPhandle fuel phandle := by
  intro n
  refine refines_ite (.refl _) (refines_ite (.refl _) ?_)
  refine (nextNode_steady (-1) none n).bind fun next => ?_
  refine findNode_steady (fun k offset => ?_) n next.1
  exact (getPhandle_steady offset k).map _

theorem stringlistContains_steady (str : CString) (n : Nat) (strlist : Word) (listlen : Int) :
    Refines (b.stringlistContains str n strlist listlen)
      (b.stringlistContains str (n + 1) strlist listlen) := by
  induction n generalizing strlist listlen with
  | zero => exact refines_none
  | succ n ih =>
    rw [stringlistContains, stringlistContains]
    refine refines_ite (.refl _) (refines_ite (.refl _) ?_)
    cases (List.range listlen.toNat).find?
        (fun i => decide (b.mem (strlist + BitVec.ofNat 32 i) = 0)) with
    | none => exact .refl _
    | some i => exact ih _ _

theorem nodeCheckCompatible_steady (nodeoffset : Word) (compatible : CString) :
    Steady fun fuel => b.nodeCheckCompatible fuel nodeoffset compatible := by
  intro n
  refine (getprop_steady nodeoffset _ n).bind fun prop => ?_
  cases prop with
  | error len => exact .refl _
  | ok prop => exact (stringlistContains_steady compatible n prop.1 _).map _

/-! ## The answers -/

/-- `answers` where each query is made in `n` rounds first. -/
noncomputable def answersWithin (b : Blob) (n : Nat) : Fdt where
  getprop node name :=
    (resultWithin n fun fuel => b.getprop fuel (BitVec.ofNat 32 node) (ascii name.toList)).bind b.propAt
  compatible node compatible :=
    decide ((resultWithin n fun fuel => b.nodeCheckCompatible fuel (BitVec.ofNat 32 node) compatible) = some 0)
  phandle node := (resultWithin n fun fuel => b.getPhandle fuel (BitVec.ofNat 32 node)).getD 0
  nodeOffsetByPhandle phandle := offset? (resultWithin n fun fuel => b.nodeOffsetByPhandle fuel phandle)
  parentOffset node := offset? (resultWithin n fun fuel => b.parentOffset fuel (BitVec.ofNat 32 node))
  subnodes node :=
    ((resultWithin n fun fuel => b.forEachSubnode fuel (BitVec.ofNat 32 node)).getD []).map BitVec.toNat
  root := if b.checkHeader = 0 then some 0 else none

theorem answersWithin_eq (b : Blob) (n : Nat) : b.answersWithin n = b.answers := by
  unfold answersWithin answers
  simp only [(getprop_steady _ _).resultWithin_eq, (nodeCheckCompatible_steady _ _).resultWithin_eq,
    (getPhandle_steady _).resultWithin_eq, (nodeOffsetByPhandle_steady _).resultWithin_eq,
    (parentOffset_steady _).resultWithin_eq, (forEachSubnode_steady _).resultWithin_eq]

end Blob

end SeCloak
