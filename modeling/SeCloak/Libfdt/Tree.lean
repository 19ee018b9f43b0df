import SeCloak.Libfdt.Ro
import SeCloak.Libfdt.Tokens
import SeCloak.Misc.Fuel

/-!
# Trees

A tree as its structure block has it: each node begins and ends with a tag, its properties stand before
its subnodes, and a NOP may stand anywhere. A loop of `fdt_next_node` from the start of a list of nodes
finds the first one (`next_forest`), or gets behind the list.
-/

namespace SeCloak
open Misc

/-- A list of nodes, each with its properties and its subnodes. -/
inductive Forest where
  | nil
  | nop (rest : Forest)
  | node (name : CString) (props : List (Option (Word × List Byte))) (subnodes rest : Forest)

/-- A property, or a NOP in its place. -/
def propToken : Option (Word × List Byte) → Token
  | none => .nop
  | some (nameoff, value) => .prop nameoff value

/-- The number of bytes that the tokens `ts` take. -/
def extent (ts : List Token) : Nat := (ts.map Token.size).sum

@[simp] theorem extent_nil : extent [] = 0 := rfl

@[simp] theorem extent_cons (t : Token) (ts : List Token) : extent (t :: ts) = t.size + extent ts := by
  simp [extent]

@[simp] theorem extent_append (ts us : List Token) : extent (ts ++ us) = extent ts + extent us := by
  simp [extent]

namespace Forest

/-- The tokens of the nodes. -/
def tokens : Forest → List Token
  | nil => []
  | nop rest => .nop :: rest.tokens
  | node name props subnodes rest =>
    .beginNode name :: (props.map propToken ++ (subnodes.tokens ++ .endNode :: rest.tokens))

/-- Where the properties of a node end. -/
def subnodesAt (o : Nat) (name : CString) (props : List (Option (Word × List Byte))) : Nat :=
  o + (Token.beginNode name).size + extent (props.map propToken)

/-- Where a node ends. -/
def restAt (o : Nat) (name : CString) (props : List (Option (Word × List Byte))) (subnodes : Forest) : Nat :=
  subnodesAt o name props + extent subnodes.tokens + 4

end Forest

theorem extent_node {o : Nat} {name : CString} {props : List (Option (Word × List Byte))} {subnodes rest : Forest} :
    o + extent (Forest.node name props subnodes rest).tokens =
      Forest.restAt o name props subnodes + extent rest.tokens := by
  simp [Forest.tokens, Forest.restAt, Forest.subnodesAt, Token.size, Token.body, tagalign]
  omega

/-- A node of a tree: its offset, the offsets of the nodes that it is in, and what it has. -/
structure Node where
  offset : Nat
  path : List Nat
  name : CString
  props : List (Option (Word × List Byte))
  subnodes : Forest

/-- The node at the depth `k` above a node, or the node itself. -/
def Node.above (n : Node) (k : Nat) : Word := (((n.path ++ [n.offset])[k]?).map (BitVec.ofNat 32)).getD (-fdtErrNotfound)

namespace Forest

/-- The nodes of a list at the offset `o` and all nodes in them, in the order of the structure block. -/
def nodes : Forest → Nat → List Nat → List Node
  | nil, _, _ => []
  | nop rest, o, path => rest.nodes (o + 4) path
  | node name props subnodes rest, o, path =>
    ⟨o, path, name, props, subnodes⟩ :: (subnodes.nodes (subnodesAt o name props) (path ++ [o]) ++
      rest.nodes (restAt o name props subnodes) path)

/-- The offsets of the nodes of the list itself. -/
def roots : Forest → Nat → List Nat
  | nil, _ => []
  | nop rest, o => rest.roots (o + 4)
  | node name props subnodes rest, o => o :: rest.roots (restAt o name props subnodes)

end Forest

/-- The root of a tree. -/
structure DeviceTree where
  name : CString
  props : List (Option (Word × List Byte))
  subnodes : Forest

namespace DeviceTree

def forest (t : DeviceTree) : Forest := .node t.name t.props t.subnodes .nil

/-- The nodes of a tree, in the order of the structure block. -/
def nodes (t : DeviceTree) : List Node := t.forest.nodes 0 []

def tokens (t : DeviceTree) : List Token := t.forest.tokens ++ [.endTree]

end DeviceTree

namespace Blob

/-- The structure block has the bytes of the tokens `ts`, each filled up with any bytes. -/
def Lays (b : Blob) : Nat → List Token → Prop
  | o, [] => o ≤ b.sizeDtStruct.toNat
  | o, t :: ts => b.Holds o t.bytes ∧ b.Lays (o + t.size) ts

/-- The structure block has the tokens `ts` at the offset `o`. -/
structure At (b : Blob) (o : Nat) (ts : List Token) : Prop where
  aligned : o % 4 = 0
  named : ∀ t ∈ ts, t.Named
  lays : b.Lays o ts

/-- The memory at `p` has the bytes `bs`. -/
def HasBytes (b : Blob) (p : Word) (bs : List Byte) : Prop :=
  ∀ i x, bs[i]? = some x → b.mem (p + BitVec.ofNat 32 i) = x

/-- The string `s` with its NUL is at `p`. -/
structure StringAt (b : Blob) (p : Word) (s : CString) : Prop where
  bytes : b.HasBytes p (s ++ [0])
  nul : 0 ∉ s

/-- The strings block has the names of the properties. -/
def NamesAt (b : Blob) (names : Word → CString) (props : List (Option (Word × List Byte))) : Prop :=
  ∀ nameoff value, some (nameoff, value) ∈ props → b.StringAt (b.string nameoff) (names nameoff)

/-- The memory holds the tree `t`, and `names` are the strings in its strings block. -/
structure Represents (b : Blob) (t : DeviceTree) (names : Word → CString) : Prop where
  placed : b.Placed
  header : b.checkHeader = 0
  tokens : b.At 0 t.tokens
  names : ∀ n ∈ t.nodes, b.NamesAt names n.props

section At

variable {b : Blob} {o : Nat} {t : Token} {ts us : List Token} {name : CString}

theorem Lays.le (h : b.Lays o ts) : o + extent ts ≤ b.sizeDtStruct.toNat := by
  induction ts generalizing o with
  | nil => exact h
  | cons t ts ih =>
    have hrest := ih h.2
    rw [extent_cons]
    omega

theorem Lays.append (h : b.Lays o (ts ++ us)) : b.Lays o ts ∧ b.Lays (o + extent ts) us := by
  induction ts generalizing o with
  | nil => exact ⟨Nat.le_of_add_right_le h.le, h⟩
  | cons t ts ih =>
    obtain ⟨hts, hus⟩ := ih h.2
    rw [extent_cons, ← Nat.add_assoc]
    exact ⟨⟨h.1, hts⟩, hus⟩

theorem extent_aligned (ts : List Token) : extent ts % 4 = 0 := by
  induction ts with
  | nil => rfl
  | cons t ts ih =>
    rw [extent_cons, Token.size, tagalign]
    omega

theorem At.append (h : b.At o (ts ++ us)) : b.At o ts ∧ b.At (o + extent ts) us := by
  obtain ⟨halign, hnamed, hlays⟩ := h
  obtain ⟨hts, hus⟩ := hlays.append
  have hsize := extent_aligned ts
  exact ⟨⟨halign, fun t ht => hnamed t (List.mem_append_left us ht), hts⟩,
    ⟨by omega, fun t ht => hnamed t (List.mem_append_right ts ht), hus⟩⟩

/-- The first token, and what follows it. -/
theorem At.cons (hb : b.Placed) (h : b.At o (t :: ts)) :
    b.nextTag (BitVec.ofNat 32 o) = (t.tag, BitVec.ofNat 32 (o + t.size)) ∧ b.At (o + t.size) ts := by
  have hsplit : b.At o ([t] ++ ts) := h
  have hrest := hsplit.append.2
  rw [extent_cons, extent_nil, Nat.add_zero] at hrest
  exact ⟨nextTag_token hb h.aligned (h.named t List.mem_cons_self) h.lays.1, hrest⟩

theorem At.le (h : b.At o ts) : o + extent ts ≤ b.sizeDtStruct.toNat := h.lays.le

theorem At.toInt (hb : b.Placed) (h : b.At o ts) : (BitVec.ofNat 32 o).toInt = o := by
  have hle := h.le
  have hsize := hb.size
  have ho : (BitVec.ofNat 32 o).toNat = o := Nat.mod_eq_of_lt (by omega)
  rw [BitVec.toInt_eq_toNat_of_lt (by omega), ho]

theorem At.mod (hb : b.Placed) (h : b.At o ts) : BitVec.ofNat 32 o % 4 = 0 := by
  have hle := h.le
  have hsize := hb.size
  have ho : (BitVec.ofNat 32 o).toNat = o := Nat.mod_eq_of_lt (by omega)
  apply BitVec.eq_of_toNat_eq
  rw [BitVec.toNat_umod, ho]
  exact h.aligned

/-- `_fdt_check_node_offset` at a node. -/
theorem At.checkNodeOffset (hb : b.Placed) (h : b.At o (.beginNode name :: ts)) :
    b.checkNodeOffset (BitVec.ofNat 32 o) = BitVec.ofNat 32 (o + (Token.beginNode name).size) := by
  obtain ⟨htag, -⟩ := h.cons hb
  have hint := h.toInt hb
  unfold Blob.checkNodeOffset checkOffset
  rw [htag, if_neg]
  simp only [not_or, not_not]
  exact ⟨by omega, h.mod hb, rfl⟩

/-- `fdt_next_node` at a node is its loop behind the begin of the node. -/
theorem At.nextNode (hb : b.Placed) (h : b.At o (.beginNode name :: ts)) (fuel : Nat) (depth : Option Int) :
    b.nextNode fuel (BitVec.ofNat 32 o) depth =
      b.nextNodeFrom fuel (BitVec.ofNat 32 (o + (Token.beginNode name).size)) depth := by
  obtain ⟨-, hrest⟩ := h.cons hb
  have hint := h.toInt hb
  have hint' := hrest.toInt hb
  unfold Blob.nextNode
  rw [if_pos (by omega), h.checkNodeOffset hb, if_neg (by omega)]

end At

section Next

variable {b : Blob} {o : Nat} {ts : List Token} {d : Int} {depth : Option Int} {r : Word × Option Int} {f : Forest}

/-- The loop of `fdt_next_node` from the offset `o` ends with `r`. -/
def Next (b : Blob) (o : Nat) (depth : Option Int) (r : Word × Option Int) : Prop :=
  Ends (fun fuel => b.nextNodeFrom fuel (BitVec.ofNat 32 o) depth) r

/-- More rounds do not change what the loop ends with. -/
theorem next_of_eq {fuel : Nat} (h : b.nextNodeFrom fuel (BitVec.ofNat 32 o) depth = some r) : b.Next o depth r := by
  refine ⟨fuel, fun fuel' hle => ?_⟩
  dsimp only
  generalize BitVec.ofNat 32 o = offset at h ⊢
  induction fuel generalizing fuel' offset depth with
  | zero => cases h
  | succ fuel ih =>
    obtain ⟨fuel', rfl⟩ := Nat.exists_eq_succ_of_ne_zero (Nat.ne_of_gt (Nat.zero_lt_of_lt hle))
    have hle := Nat.le_of_succ_le_succ hle
    rw [nextNodeFrom] at h ⊢
    dsimp only at h ⊢
    split at h
    next hpass =>
      rw [if_pos hpass]
      exact ih _ hle _ h
    next hpass =>
      rw [if_neg hpass]
      split at h
      next hbegin => rwa [if_pos hbegin]
      next hbegin =>
        rw [if_neg hbegin]
        split at h
        next hleave =>
          rw [if_pos hleave]
          split at h
          next hdepth => rwa [if_pos hdepth]
          next hdepth =>
            rw [if_neg hdepth]
            exact ih _ hle _ h
        next hleave => rwa [if_neg hleave]

theorem next_nop (hb : b.Placed) (h : b.At o (.nop :: ts)) (hnext : b.Next (o + 4) depth r) : b.Next o depth r := by
  obtain ⟨htag, -⟩ := h.cons hb
  refine hnext.round fun fuel => ?_
  rw [nextNodeFrom, htag]
  rfl

theorem next_prop {nameoff : Word} {value : List Byte} (hb : b.Placed) (h : b.At o (.prop nameoff value :: ts))
    (hnext : b.Next (o + (Token.prop nameoff value).size) depth r) : b.Next o depth r := by
  obtain ⟨htag, -⟩ := h.cons hb
  refine hnext.round fun fuel => ?_
  rw [nextNodeFrom, htag]
  rfl

/-- The properties of a node are skipped. -/
theorem next_props {props : List (Option (Word × List Byte))} (hb : b.Placed)
    (h : b.At o (props.map propToken ++ ts)) (hnext : b.Next (o + extent (props.map propToken)) depth r) :
    b.Next o depth r := by
  induction props generalizing o with
  | nil => exact hnext
  | cons p props ih =>
    rw [List.map_cons, extent_cons, ← Nat.add_assoc] at hnext
    rw [List.map_cons, List.cons_append] at h
    have hrest := ih (h.cons hb).2 hnext
    cases p with
    | none => exact next_nop hb h hrest
    | some p => exact next_prop hb h hrest

theorem next_begin {name : CString} (hb : b.Placed) (h : b.At o (.beginNode name :: ts)) :
    b.Next o depth (BitVec.ofNat 32 o, depth.map (· + 1)) := by
  obtain ⟨htag, -⟩ := h.cons hb
  refine ends_some.round fun fuel => ?_
  rw [nextNodeFrom, htag]
  rfl

/-- At the end of a node the loop goes on behind it. -/
theorem next_leave (hb : b.Placed) (h : b.At o (.endNode :: ts)) (hd : 0 ≤ d)
    (hnext : b.Next (o + 4) (some d) r) : b.Next o (some (d + 1)) r := by
  obtain ⟨htag, -⟩ := h.cons hb
  refine hnext.round fun fuel => ?_
  rw [nextNodeFrom, htag]
  refine (if_neg (by decide)).trans ((if_neg (by decide)).trans ((if_pos rfl).trans ((if_neg ?_).trans ?_)))
  · rintro ⟨d', hmem, hlt⟩
    cases hmem
    omega
  · rw [Option.map_some, Int.add_sub_cancel]
    rfl

theorem next_leave_none (hb : b.Placed) (h : b.At o (.endNode :: ts)) (hnext : b.Next (o + 4) none r) :
    b.Next o none r := by
  obtain ⟨htag, -⟩ := h.cons hb
  refine hnext.round fun fuel => ?_
  rw [nextNodeFrom, htag]
  refine (if_neg (by decide)).trans ((if_neg (by decide)).trans ((if_pos rfl).trans (if_neg ?_)))
  rintro ⟨d, hmem, -⟩
  cases hmem

/-- At the end of the node that it started in, it ends. -/
theorem next_out (hb : b.Placed) (h : b.At o (.endNode :: ts)) :
    b.Next o (some 0) (BitVec.ofNat 32 (o + 4), some (-1)) := by
  obtain ⟨htag, -⟩ := h.cons hb
  refine ends_some.round fun fuel => ?_
  rw [nextNodeFrom, htag]
  exact (if_neg (by decide)).trans ((if_neg (by decide)).trans ((if_pos rfl).trans (if_pos ⟨0, rfl, by decide⟩)))

theorem next_end (hb : b.Placed) (h : b.At o (.endTree :: ts)) : b.Next o depth (-fdtErrNotfound, depth) := by
  obtain ⟨htag, hrest⟩ := h.cons hb
  have hint := hrest.toInt hb
  refine ends_some.round fun fuel => ?_
  rw [nextNodeFrom, htag]
  refine (if_neg (by decide)).trans ((if_neg (by decide)).trans ((if_neg (by decide)).trans (if_pos (.inl ?_))))
  omega

/-- From the start of a list of nodes the loop finds the first one. -/
theorem next_forest {c : Nat} {cs : List Nat} (hb : b.Placed) (h : b.At o (f.tokens ++ ts))
    (hroots : f.roots o = c :: cs) : b.Next o depth (BitVec.ofNat 32 c, depth.map (· + 1)) := by
  induction f generalizing o with
  | nil => cases hroots
  | nop rest ih => exact next_nop hb h (ih (h.cons hb).2 hroots)
  | node name props subnodes rest =>
    obtain ⟨rfl, -⟩ := List.cons.inj hroots
    exact next_begin hb h

/-- A list without nodes is skipped. -/
theorem next_empty (hb : b.Placed) (h : b.At o (f.tokens ++ ts)) (hroots : f.roots o = [])
    (hnext : b.Next (o + extent f.tokens) depth r) : b.Next o depth r := by
  induction f generalizing o with
  | nil => exact hnext
  | nop rest ih =>
    rw [Forest.tokens, extent_cons, ← Nat.add_assoc] at hnext
    exact next_nop hb h (ih (h.cons hb).2 hroots hnext)
  | node name props subnodes rest => cases hroots

end Next

/-- What follows the begin of a node. -/
theorem At.node {b : Blob} {o : Nat} {ts : List Token} {name : CString} {props : List (Option (Word × List Byte))}
    {subnodes rest : Forest} (hb : b.Placed) (h : b.At o ((Forest.node name props subnodes rest).tokens ++ ts)) :
    b.At (o + (Token.beginNode name).size)
        (props.map propToken ++ (subnodes.tokens ++ (.endNode :: (rest.tokens ++ ts)))) ∧
      b.At (Forest.subnodesAt o name props) (subnodes.tokens ++ (.endNode :: (rest.tokens ++ ts))) ∧
      b.At (Forest.subnodesAt o name props + extent subnodes.tokens) (.endNode :: (rest.tokens ++ ts)) ∧
      b.At (Forest.restAt o name props subnodes) (rest.tokens ++ ts) := by
  rw [Forest.tokens, List.cons_append, List.append_assoc, List.append_assoc, List.cons_append] at h
  obtain ⟨-, hprops⟩ := h.cons hb
  obtain ⟨-, hsub⟩ := hprops.append
  obtain ⟨-, hend⟩ := hsub.append
  exact ⟨hprops, hsub, hend, (hend.cons hb).2⟩

/-- A node of a list is in the structure block. -/
theorem At.mem {b : Blob} {o : Nat} {ts : List Token} {f : Forest} {n : Node} {path : List Nat} (hb : b.Placed)
    (h : b.At o (f.tokens ++ ts)) (hn : n ∈ f.nodes o path) :
    ∃ us, b.At n.offset ((Forest.node n.name n.props n.subnodes .nil).tokens ++ us) := by
  induction f generalizing o path ts with
  | nil => cases hn
  | nop rest ih => exact ih (h.cons hb).2 hn
  | node name props subnodes rest ihs ihr =>
    obtain ⟨-, hsub, -, hrest⟩ := h.node hb
    rw [Forest.nodes, List.mem_cons, List.mem_append] at hn
    rcases hn with rfl | hn | hn
    · refine ⟨rest.tokens ++ ts, ?_⟩
      simpa [Forest.tokens] using h
    · exact ihs hsub hn
    · exact ihr hrest hn

end Blob

end SeCloak
