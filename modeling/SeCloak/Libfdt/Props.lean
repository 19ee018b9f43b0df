import SeCloak.Libfdt.Walks

/-!
# Properties of a tree

`fdt_getprop` returns the bytes of the first property of a node with a name (`getprop_node`). The strings
block gives the names: `names` is what it has at each offset.
-/

namespace SeCloak
open Misc

/-- The value of the first property with the name `name`. -/
def findProp (names : Word → CString) (name : CString) : List (Option (Word × List Byte)) → Option (List Byte)
  | [] => none
  | none :: props => findProp names name props
  | some (nameoff, value) :: props => if names nameoff = name then some value else findProp names name props

/-- The offsets of the properties in a list at the offset `o`. -/
def propOffsets : List (Option (Word × List Byte)) → Nat → List Nat
  | [], _ => []
  | none :: props, o => propOffsets props (o + 4)
  | some (nameoff, value) :: props, o => o :: propOffsets props (o + (Token.prop nameoff value).size)

namespace Blob

variable {b : Blob} {o : Nat} {ts : List Token} {f : Forest} {names : Word → CString} {name s : CString} {p : Word}
  {props : List (Option (Word × List Byte))} {value : List Byte}

/-! ## Strings -/

theorem StringAt.strlen (h : b.StringAt p s) : Ends (fun fuel => b.strlen fuel p) s.length := by
  obtain ⟨hbytes, hnul⟩ := h
  induction s generalizing p with
  | nil =>
    have hmem := hbytes 0 0 rfl
    have hp : p + BitVec.ofNat 32 0 = p := by simp
    rw [hp] at hmem
    refine ends_some.round fun fuel => ?_
    rw [Blob.strlen, if_pos hmem]
    rfl
  | cons c s ih =>
    have hmem := hbytes 0 c rfl
    have hp : p + BitVec.ofNat 32 0 = p := by simp
    rw [hp] at hmem
    have hne : c ≠ 0 := by
      rintro rfl
      exact hnul List.mem_cons_self
    have hsplit : b.HasBytes p ([c] ++ (s ++ [0])) := hbytes
    have hrest := ih (p := p + 1) hsplit.append.2 fun hmem => hnul (List.mem_cons_of_mem c hmem)
    refine (hrest.map (· + 1)).round fun fuel => ?_
    rw [Blob.strlen, hmem, if_neg hne]

/-- `_fdt_string_eq` compares the string at an offset. -/
theorem StringAt.stringEq (name : CString) {nameoff : Word} (h : b.StringAt (b.string nameoff) s) :
    Ends (fun fuel => b.stringEq fuel nameoff name) (decide (s = name)) := by
  have hlen := h.strlen.map fun len => decide (len = name.length) && b.memcmpEq (b.string nameoff) name
  have hval : (decide (s.length = name.length) && b.memcmpEq (b.string nameoff) name) = decide (s = name) := by
    by_cases heq : s.length = name.length
    · rw [memcmpEq, ← heq, h.bytes.append.1.map_range, decide_eq_true rfl, Bool.true_and]
    · have hne : s ≠ name := by
        rintro rfl
        exact heq rfl
      rw [decide_eq_false heq, decide_eq_false hne, Bool.false_and]
  rw [hval] at hlen
  exact hlen

/-! ## Walks over properties -/

/-- Behind the properties of a node there is none. -/
theorem nextprop_none (hb : b.Placed) (h : b.At o (f.tokens ++ .endNode :: ts)) :
    Ends (fun fuel => b.nextprop fuel (BitVec.ofNat 32 o)) (-fdtErrNotfound) := by
  induction f generalizing o ts with
  | nil =>
    obtain ⟨htag, -⟩ := h.cons hb
    refine ends_some.round fun fuel => ?_
    rw [nextprop, htag]
    rfl
  | nop rest ih =>
    obtain ⟨htag, hrest⟩ := h.cons hb
    refine (ih hrest).round fun fuel => ?_
    rw [nextprop, htag]
    rfl
  | node name props subnodes rest =>
    obtain ⟨htag, -⟩ := h.cons hb
    refine ends_some.round fun fuel => ?_
    rw [nextprop, htag]
    rfl

theorem nextprop_props (hb : b.Placed) (h : b.At o (props.map propToken ++ (f.tokens ++ .endNode :: ts))) :
    Ends (fun fuel => b.nextprop fuel (BitVec.ofNat 32 o)) (firstOf (propOffsets props o)) := by
  induction props generalizing o with
  | nil => exact nextprop_none hb h
  | cons prop props ih =>
    rw [List.map_cons, List.cons_append] at h
    obtain ⟨htag, hrest⟩ := h.cons hb
    cases prop with
    | none =>
      refine (ih hrest).round fun fuel => ?_
      rw [nextprop, htag]
      rfl
    | some prop =>
      refine ends_some.round fun fuel => ?_
      rw [nextprop, htag]
      rfl

theorem At.checkPropOffset {nameoff : Word} (hb : b.Placed) (h : b.At o (.prop nameoff value :: ts)) :
    b.checkPropOffset (BitVec.ofNat 32 o) = BitVec.ofNat 32 (o + (Token.prop nameoff value).size) ∧
      0 ≤ (b.checkPropOffset (BitVec.ofNat 32 o)).toInt := by
  obtain ⟨htag, hrest⟩ := h.cons hb
  have hint := h.toInt hb
  have hint' := hrest.toInt hb
  have hcheck : b.checkPropOffset (BitVec.ofNat 32 o) = BitVec.ofNat 32 (o + (Token.prop nameoff value).size) := by
    unfold Blob.checkPropOffset checkOffset
    rw [htag, if_neg]
    simp only [not_or, not_not]
    exact ⟨by omega, h.mod hb, rfl⟩
  exact ⟨hcheck, by rw [hcheck]; omega⟩

/-- What the property at an offset has. -/
theorem At.prop {nameoff : Word} (hb : b.Placed) (h : b.At o (.prop nameoff value :: ts)) :
    b.getPropertyByOffset (BitVec.ofNat 32 o) = .ok (b.ptr (BitVec.ofNat 32 o), BitVec.ofNat 32 value.length) ∧
      b.fdt32 (b.ptr (BitVec.ofNat 32 o) + 8) = nameoff ∧
      b.HasBytes (b.ptr (BitVec.ofNat 32 o) + 12) value ∧ value.length ≤ b.sizeDtStruct.toNat := by
  obtain ⟨hcheck, hpos⟩ := h.checkPropOffset hb
  have hbody := (holds_append.mp h.lays.1).2
  obtain ⟨hlen, hfields⟩ := holds_append.mp hbody
  obtain ⟨hname, hvalue⟩ := holds_append.mp hfields
  have hshift : ∀ k : Word, b.ptr (BitVec.ofNat 32 o) + k = b.ptr (BitVec.ofNat 32 (o + k.toNat)) := fun k => ptr_add k
  refine ⟨?_, ?_, ?_, ?_⟩
  · have hword : b.fdt32 (b.ptr (BitVec.ofNat 32 (o + (4 : Word).toNat))) = BitVec.ofNat 32 value.length := hlen.fdt32
    rw [getPropertyByOffset, if_neg (by omega), hshift 4, hword]
  · rw [hshift 8]
    exact hname.fdt32
  · rw [hshift 12]
    exact .of_holds hvalue
  · have hle := hvalue.1
    omega

/-! ## Lookups -/

/-- The address of a value and its length, as `fdt_getprop` returns them. -/
def Returned (b : Blob) (value : Option (List Byte)) (r : Except Word (Word × Word)) : Prop :=
  match value with
  | none => r = .error (-fdtErrNotfound)
  | some value =>
    ∃ p, r = .ok (p, BitVec.ofNat 32 value.length) ∧ b.HasBytes p value ∧ value.length ≤ b.sizeDtStruct.toNat

/-- What a lookup does at a property that ends at the offset `o`. -/
def propStep (b : Blob) (name : CString) (prop : Word × Word) (o : Nat) (eq : Bool) (fuel : Nat) :
    Option (Except Word (Word × Word)) :=
  if eq then some (.ok prop)
  else (b.nextprop fuel (BitVec.ofNat 32 o)).bind (b.getPropertyFrom name fuel)

theorem getPropertyFrom_prop (name : CString) {nameoff : Word} (hb : b.Placed)
    (h : b.At o (.prop nameoff value :: ts)) (fuel : Nat) :
    b.getPropertyFrom name (fuel + 1) (BitVec.ofNat 32 o) = (b.stringEq fuel nameoff name).bind fun eq =>
      b.propStep name (b.ptr (BitVec.ofNat 32 o), BitVec.ofNat 32 value.length)
        (o + (Token.prop nameoff value).size) eq fuel := by
  obtain ⟨hprop, hname, -⟩ := h.prop hb
  obtain ⟨hcheck, hpos⟩ := h.checkPropOffset hb
  have hint := h.toInt hb
  rw [getPropertyFrom, if_neg (by omega), hprop]
  dsimp only
  rw [hname, nextPropertyOffset, if_neg (by omega), hcheck]
  rfl

theorem getPropertyFrom_props (name : CString) (hb : b.Placed)
    (h : b.At o (props.map propToken ++ (f.tokens ++ .endNode :: ts))) (hnames : b.NamesAt names props) :
    ∃ r, b.Returned (findProp names name props) (r.map fun (p, len) => (p + 12, len)) ∧
      Ends (fun fuel => b.getPropertyFrom name fuel (firstOf (propOffsets props o))) r := by
  induction props generalizing o with
  | nil =>
    refine ⟨.error (-fdtErrNotfound), rfl, ends_some.round fun fuel => ?_⟩
    rw [propOffsets, firstOf, getPropertyFrom, if_pos (by decide)]
  | cons prop props ih =>
    rw [List.map_cons, List.cons_append] at h
    obtain ⟨-, hrest⟩ := h.cons hb
    have hothers : b.NamesAt names props := fun nameoff value hmem => hnames nameoff value (List.mem_cons_of_mem _ hmem)
    cases prop with
    | none => exact ih hrest hothers
    | some prop =>
      obtain ⟨nameoff, value⟩ := prop
      obtain ⟨-, -, hvalue⟩ := h.prop hb
      have heq := (hnames nameoff value List.mem_cons_self).stringEq name
      have hround := getPropertyFrom_prop name hb h
      rw [findProp, propOffsets, firstOf]
      by_cases hsame : names nameoff = name
      · rw [if_pos hsame]
        rw [hsame, decide_eq_true rfl] at heq
        have hhere : Ends (b.propStep name (b.ptr (BitVec.ofNat 32 o), BitVec.ofNat 32 value.length)
            (o + (Token.prop nameoff value).size) true)
            (.ok (b.ptr (BitVec.ofNat 32 o), BitVec.ofNat 32 value.length)) :=
          ends_some.congr fun _ => if_pos rfl
        exact ⟨_, ⟨_, rfl, hvalue⟩, (heq.bind hhere).round hround⟩
      · rw [if_neg hsame]
        rw [decide_eq_false hsame] at heq
        obtain ⟨r, hr, hend⟩ := ih hrest hothers
        have hnext := (nextprop_props hb hrest).bind (k := fun offset fuel => b.getPropertyFrom name fuel offset) hend
        have hthere : Ends (b.propStep name (b.ptr (BitVec.ofNat 32 o), BitVec.ofNat 32 value.length)
            (o + (Token.prop nameoff value).size) false) r := hnext
        exact ⟨r, hr, (heq.bind hthere).round hround⟩

variable {tree : DeviceTree} {n : Node}

/-- `fdt_getprop` returns the first property with a name that a node of a tree has. -/
theorem getprop_node (name : CString) (h : b.Represents tree names) (hn : n ∈ tree.nodes) :
    ∃ r, b.Returned (findProp names name n.props) r ∧
      Ends (fun fuel => b.getprop fuel (BitVec.ofNat 32 n.offset) name) r := by
  have hb := h.placed
  obtain ⟨us, hnode⟩ := h.tokens.mem hb hn
  obtain ⟨hprops, -, -, -⟩ := hnode.node hb
  have hint := hprops.toInt hb
  obtain ⟨r, hr, hend⟩ := getPropertyFrom_props name hb hprops (h.names n hn)
  have hfirst : ∀ fuel, b.firstPropertyOffset fuel (BitVec.ofNat 32 n.offset) =
      b.nextprop fuel (BitVec.ofNat 32 (n.offset + (Token.beginNode n.name).size)) := by
    intro fuel
    rw [firstPropertyOffset, hnode.checkNodeOffset hb, if_neg (by omega)]
  have hget := (nextprop_props hb hprops).bind (k := fun offset fuel => b.getPropertyFrom name fuel offset) hend
  refine ⟨_, hr, (hget.map fun prop => prop.map fun (p, len) => (p + 12, len)).congr fun fuel => ?_⟩
  rw [getprop, getPropertyNamelen, hfirst]

end Blob

/-! ## Handles -/

/-- The cell in a property of one cell. -/
def cellOf : List Byte → Option Word
  | [x, y, z, w] => some (x ++ y ++ z ++ w)
  | _ => none

namespace Node

/-- The cell in the first property with a name. -/
def cell (names : Word → CString) (n : Node) (name : CString) : Option Word := (findProp names name n.props).bind cellOf

/-- The handle of a node, or 0. -/
def phandle (names : Word → CString) (n : Node) : Word :=
  match n.cell names (ascii ['p', 'h', 'a', 'n', 'd', 'l', 'e']) with
  | some php => php
  | none => (n.cell names (ascii ['l', 'i', 'n', 'u', 'x', ',', 'p', 'h', 'a', 'n', 'd', 'l', 'e'])).getD 0

end Node

namespace Blob

section Handles

variable {b : Blob} {ts : List Token} {names : Word → CString} {value : Option (List Byte)}
  {r : Except Word (Word × Word)} {tree : DeviceTree} {n : Node}

theorem Returned.getCell (hb : b.Placed) (h : b.Returned value r) : b.getCell r = value.bind cellOf := by
  have hsize := hb.size
  cases value with
  | none =>
    rw [show r = _ from h]
    rfl
  | some value =>
    obtain ⟨p, rfl, hbytes, hlen⟩ := h
    have hval : (BitVec.ofNat 32 value.length).toNat = value.length := Nat.mod_eq_of_lt (by omega)
    rw [Blob.getCell]
    match value with
    | [x, y, z, w] =>
      have hp : p + BitVec.ofNat 32 0 = p := by simp
      have h0 := hbytes 0 x rfl
      have h1 : b.mem (p + 1) = y := hbytes 1 y rfl
      have h2 : b.mem (p + 2) = z := hbytes 2 z rfl
      have h3 : b.mem (p + 3) = w := hbytes 3 w rfl
      rw [hp] at h0
      have hfour : BitVec.ofNat 32 [x, y, z, w].length = (4 : Word) := rfl
      rw [if_pos hfour, Blob.fdt32, h0, h1, h2, h3]
      rfl
    | [] | [_] | [_, _] | [_, _, _] => rfl
    | x :: y :: z :: w :: v :: rest =>
      rw [if_neg]
      · rfl
      · intro heq
        have hfour := congrArg BitVec.toNat heq
        rw [hval, List.length_cons, List.length_cons, List.length_cons, List.length_cons, List.length_cons] at hfour
        have hlit : (4 : Word).toNat = 4 := rfl
        omega

/-- `fdt_get_phandle` at a node of a tree. -/
theorem getPhandle_node (h : b.Represents tree names) (hn : n ∈ tree.nodes) :
    Ends (fun fuel => b.getPhandle fuel (BitVec.ofNat 32 n.offset)) (n.phandle names) := by
  obtain ⟨r, hr, hend⟩ :=
    getprop_node (ascii ['p', 'h', 'a', 'n', 'd', 'l', 'e']) h hn
  obtain ⟨r', hr', hend'⟩ := getprop_node
    (ascii ['l', 'i', 'n', 'u', 'x', ',', 'p', 'h', 'a', 'n', 'd', 'l', 'e']) h hn
  refine hend.bind (k := fun prop fuel => match b.getCell prop with
    | some php => some php
    | none => (b.getprop fuel (BitVec.ofNat 32 n.offset)
        (ascii ['l', 'i', 'n', 'u', 'x', ',', 'p', 'h', 'a', 'n', 'd', 'l', 'e'])).map fun prop =>
        (b.getCell prop).getD 0) ?_
  have hcell : b.getCell r = n.cell names (ascii ['p', 'h', 'a', 'n', 'd', 'l', 'e']) := hr.getCell h.placed
  rw [hcell, Node.phandle]
  cases n.cell names (ascii ['p', 'h', 'a', 'n', 'd', 'l', 'e']) with
  | some php => exact ends_some
  | none =>
    have hsecond := hend'.map fun prop => (b.getCell prop).getD 0
    rw [hr'.getCell h.placed] at hsecond
    exact hsecond

theorem findSome?_offset (p : Node → Prop) [DecidablePred p] (nodes : List Node) :
    nodes.findSome? (fun n => if p n then some (BitVec.ofNat 32 n.offset) else none) =
      (nodes.find? fun n => decide (p n)).map fun n => BitVec.ofNat 32 n.offset := by
  induction nodes with
  | nil => rfl
  | cons n nodes ih =>
    rw [List.findSome?_cons, List.find?_cons]
    by_cases heq : p n
    · simp [heq]
    · simp [heq, ih]

/-- `fdt_node_offset_by_phandle` finds the first node with a handle. -/
theorem nodeOffsetByPhandle_tree {phandle : Word} (h : b.Represents tree names)
    (hvalid : ¬ (phandle = 0 ∨ phandle = -1)) : Ends (fun fuel => b.nodeOffsetByPhandle fuel phandle)
      (((tree.nodes.find? fun n => decide (n.phandle names = phandle)).map
        fun n => BitVec.ofNat 32 n.offset).getD (-fdtErrNotfound)) := by
  have hsearch := findAt_tree
    (fun fuel offset => (b.getPhandle fuel offset).map fun php => if php = phandle then some offset else none)
    (fun n => if n.phandle names = phandle then some (BitVec.ofNat 32 n.offset) else none) h
    fun n hn => (getPhandle_node h hn).map
      fun php => if php = phandle then some (BitVec.ofNat 32 n.offset) else none
  rw [findSome?_offset] at hsearch
  refine hsearch.congr fun fuel => ?_
  rw [nodeOffsetByPhandle, if_neg hvalid, if_neg (by simp [h.header])]

end Handles

/-! ## Lists of strings -/

section Compatible

variable {b : Blob} {ts : List Token} {names : Word → CString} {p : Word} {s str : CString} {ss : List CString}
  {bs : List Byte} {tree : DeviceTree} {n : Node}

theorem memcmpEq_iff : b.memcmpEq p bs = true ↔ b.HasBytes p bs := by
  rw [memcmpEq, decide_eq_true_iff]
  constructor
  · intro heq i x hx
    have hi := (List.getElem?_eq_some_iff.mp hx).1
    have hval : ((List.range bs.length).map fun i => b.mem (p + BitVec.ofNat 32 i))[i]? = bs[i]? := congrArg (·[i]?) heq
    rw [List.getElem?_map, List.getElem?_range hi, hx] at hval
    exact Option.some.inj hval
  · exact HasBytes.map_range

theorem StringAt.unique {s' : CString} (h : b.StringAt p s) (h' : b.StringAt p s') : s = s' := by
  have hlen : s.length = s'.length := h.strlen.unique h'.strlen
  rw [← h.bytes.append.1.map_range, ← h'.bytes.append.1.map_range, hlen]

theorem StringAt.memcmpEq (h : b.StringAt p s) (hstr : 0 ∉ str) :
    b.memcmpEq p (str ++ [0]) = decide (s = str) := by
  rw [Bool.eq_iff_iff, memcmpEq_iff, decide_eq_true_iff]
  constructor
  · intro hbytes
    exact h.unique ⟨hbytes, hstr⟩
  · rintro rfl
    exact h.bytes

/-- `memchr` finds the NUL of a string. -/
theorem StringAt.find (h : b.StringAt p s) {m : Nat} (hm : s.length < m) :
    (List.range m).find? (fun i => decide (b.mem (p + BitVec.ofNat 32 i) = 0)) = some s.length := by
  rw [List.find?_range_eq_some]
  refine ⟨?_, List.mem_range.mpr hm, fun i hi => ?_⟩
  · rw [decide_eq_true_iff]
    exact h.bytes s.length 0 List.getElem?_concat_length
  · have hmem := h.bytes i s[i] (by rw [List.getElem?_append_left hi, List.getElem?_eq_getElem hi])
    rw [hmem, Bool.not_eq_true', decide_eq_false_iff_not]
    intro hzero
    exact h.nul (hzero ▸ List.getElem_mem hi)

/-- `fdt_stringlist_contains` on a list of strings. -/
theorem stringlistContains_splits (hlist : SplitsInto 0 bs ss) (hbytes : b.HasBytes p bs) (hstr : 0 ∉ str)
    (hne : str ≠ []) : Ends (fun fuel => b.stringlistContains str fuel p bs.length) (decide (str ∈ ss)) := by
  have hpos := List.length_pos_iff.mpr hne
  induction ss generalizing bs p with
  | nil =>
    obtain ⟨rfl, -⟩ := hlist
    refine ends_some.round fun fuel => ?_
    rw [stringlistContains, if_pos (by simpa using hpos)]
    rfl
  | cons s ss ih =>
    obtain ⟨rest, rfl, hs, hrest⟩ := splitsInto_cons.mp hlist
    rw [← List.singleton_append, ← List.append_assoc] at hbytes
    obtain ⟨hfirst, hbehind⟩ := hbytes.append
    have hat : b.StringAt p s := ⟨hfirst, hs⟩
    have hlen : (s ++ 0 :: rest).length = s.length + 1 + rest.length := by
      simp
      omega
    rw [hlen]
    by_cases hsame : s = str
    · -- the first string is the one that is looked for
      subst hsame
      refine ends_some.round fun fuel => ?_
      rw [stringlistContains, if_neg (by omega), hat.memcmpEq hs]
      simp
    · have hfound : decide (str ∈ s :: ss) = decide (str ∈ ss) := by
        rw [decide_eq_decide, List.mem_cons]
        exact or_iff_right (Ne.symm hsame)
      rw [hfound]
      by_cases hshort : s.length + 1 + rest.length < str.length
      · -- none of the strings is long enough
        have hnone : str ∉ ss := by
          intro hmem
          obtain ⟨rfl, -⟩ := hrest
          have hle := List.Sublist.length_le (List.sublist_flatten_of_mem (List.mem_map_of_mem (f := (· ++ [0])) hmem))
          rw [← List.flatMap_def] at hle
          simp only [List.length_append, List.length_singleton] at hle
          omega
        refine ends_some.round fun fuel => ?_
        rw [stringlistContains, if_pos (by omega), decide_eq_false hnone]
      · rw [List.length_append, List.length_singleton] at hbehind
        refine (ih hrest hbehind).round fun fuel => ?_
        have hfind := hat.find (m := s.length + 1 + rest.length) (by omega)
        have hleft : ((s.length + 1 + rest.length : Nat) : Int) - (s.length + 1) = rest.length := by omega
        rw [stringlistContains, if_neg (by omega), hat.memcmpEq hstr, decide_eq_false hsame, Int.toNat_natCast, hfind]
        dsimp only
        rw [hleft]
        simp

/-- What `fdt_node_check_compatible` does with the property. -/
def checkStep (b : Blob) (str : CString) (prop : Except Word (Word × Word)) (fuel : Nat) : Option Int :=
  match prop with
  | .error len => some len.toInt
  | .ok (prop, len) => (b.stringlistContains str fuel prop len.toInt).map fun contains => if contains then 0 else 1

/-- `fdt_node_check_compatible` at a node of a tree whose `compatible` property, if any, is the strings `ss`. -/
theorem nodeCheckCompatible_node (h : b.Represents tree names) (hn : n ∈ tree.nodes) (hstr : 0 ∉ str) (hne : str ≠ [])
    (hlist : ∀ value, findProp names (ascii ['c', 'o', 'm', 'p', 'a', 't', 'i', 'b', 'l', 'e']) n.props = some value →
      SplitsInto 0 value ss) :
    Ends (fun fuel => b.nodeCheckCompatible fuel (BitVec.ofNat 32 n.offset) str)
      (if findProp names (ascii ['c', 'o', 'm', 'p', 'a', 't', 'i', 'b', 'l', 'e']) n.props = none
        then (-fdtErrNotfound).toInt else if str ∈ ss then 0 else 1) := by
  obtain ⟨r, hr, hend⟩ := getprop_node (ascii ['c', 'o', 'm', 'p', 'a', 't', 'i', 'b', 'l', 'e']) h hn
  refine hend.bind (k := b.checkStep str) ?_
  cases hfind : findProp names (ascii ['c', 'o', 'm', 'p', 'a', 't', 'i', 'b', 'l', 'e']) n.props with
  | none =>
    rw [hfind] at hr
    obtain rfl := show r = _ from hr
    exact ends_some
  | some value =>
    rw [hfind] at hr
    obtain ⟨p, rfl, hbytes, hlen⟩ := hr
    have hsize := h.placed.size
    have hint : (BitVec.ofNat 32 value.length).toInt = value.length := by
      have hval : (BitVec.ofNat 32 value.length).toNat = value.length := Nat.mod_eq_of_lt (by omega)
      rw [BitVec.toInt_eq_toNat_of_lt (by omega), hval]
    have hcontains := (stringlistContains_splits (hlist value hfind) hbytes hstr hne).map
      fun contains => if contains then (0 : Int) else 1
    rw [← hint] at hcontains
    have hstep : Ends (b.checkStep str (.ok (p, BitVec.ofNat 32 value.length)))
        (if decide (str ∈ ss) = true then (0 : Int) else 1) := hcontains
    rw [if_neg (by simp)]
    simpa only [decide_eq_true_iff] using hstep

end Compatible

end Blob

end SeCloak
