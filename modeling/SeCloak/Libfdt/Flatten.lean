import SeCloak.Libfdt.Tree
import SeCloak.Misc.Terminated

/-!
# Trees in memory

Each tree has a list of bytes: a header, the tokens of the tree, and the strings of its names. A memory
that has these bytes holds the tree (`represents_flatten`).
-/

namespace SeCloak
open Misc

/-! ## Bytes -/

/-- The bytes of the tokens `ts`, each filled up with NULs. -/
def encode (ts : List Token) : List Byte := ts.flatMap fun t => t.bytes ++ List.replicate (t.size - t.bytes.length) 0

/-- The header of a tree, and a map of reserved memory without entries. -/
def fdtHeader (structSize stringsSize : Nat) : List Byte :=
  [0xd00dfeed, BitVec.ofNat 32 (56 + structSize + stringsSize), 56, BitVec.ofNat 32 (56 + structSize), 40, 17, 16, 0,
    BitVec.ofNat 32 stringsSize, BitVec.ofNat 32 structSize].flatMap be32 ++ List.replicate 16 0

/-- A tree as a flat list of bytes. -/
def flatten (ts : List Token) (strings : List Byte) : List Byte :=
  fdtHeader (extent ts) strings.length ++ (encode ts ++ strings)

/-- The string at an offset in the strings block. -/
def nameIn (strings : List Byte) (nameoff : Word) : CString := (strings.drop nameoff.toNat).takeWhile (· ≠ 0)

@[simp] theorem length_encode (ts : List Token) : (encode ts).length = extent ts := by
  induction ts with
  | nil => rfl
  | cons t ts ih =>
    have hle := t.le_size
    rw [encode, List.flatMap_cons, List.length_append, ← encode, ih, extent_cons, List.length_append,
      List.length_replicate]
    omega

@[simp] theorem length_flatten (ts : List Token) (strings : List Byte) :
    (flatten ts strings).length = 56 + extent ts + strings.length := by
  have hheader : (fdtHeader (extent ts) strings.length).length = 56 := rfl
  rw [flatten, List.length_append, List.length_append, length_encode, hheader, Nat.add_assoc]

namespace Blob

variable {b : Blob} {ts : List Token} {strings : List Byte} {s : CString} {p : Word} {o : Nat}

theorem HasBytes.map_range (h : b.HasBytes p s) :
    (List.range s.length).map (fun i => b.mem (p + BitVec.ofNat 32 i)) = s := by
  apply List.ext_getElem?
  intro i
  rcases Nat.lt_or_ge i s.length with hi | hi
  · rw [List.getElem?_map, List.getElem?_range hi, List.getElem?_eq_getElem hi, Option.map_some,
      h i s[i] (List.getElem?_eq_getElem hi)]
  · rw [List.getElem?_eq_none (by simpa using hi), List.getElem?_eq_none hi]

theorem HasBytes.append {xs ys : List Byte} (h : b.HasBytes p (xs ++ ys)) :
    b.HasBytes p xs ∧ b.HasBytes (p + BitVec.ofNat 32 xs.length) ys := by
  refine ⟨fun i x hx => h i x ?_, fun i x hx => ?_⟩
  · rw [List.getElem?_append_left]
    · exact hx
    · exact (List.getElem?_eq_some_iff.mp hx).1
  · rw [BitVec.add_assoc, ← BitVec.ofNat_add]
    refine h _ x ?_
    rwa [List.getElem?_append_right (Nat.le_add_right _ _), Nat.add_sub_cancel_left]

theorem HasBytes.of_holds {bs : List Byte} (h : b.Holds o bs) : b.HasBytes (b.ptr (BitVec.ofNat 32 o)) bs := by
  intro i x hx
  have hval := h.2 i x hx
  rwa [byteAt, BitVec.ofNat_add, Blob.ptr, ← BitVec.add_assoc] at hval

theorem HasBytes.fdt32 {w : Word} (h : b.HasBytes p (be32 w)) : b.fdt32 p = w := by
  have h0 := h 0 _ rfl
  have h1 : b.mem (p + 1) = w.extractLsb' 16 8 := h 1 _ rfl
  have h2 : b.mem (p + 2) = w.extractLsb' 8 8 := h 2 _ rfl
  have h3 : b.mem (p + 3) = w.extractLsb' 0 8 := h 3 _ rfl
  have hp : p + BitVec.ofNat 32 0 = p := by simp
  rw [hp] at h0
  rw [Blob.fdt32, h0, h1, h2, h3]
  apply BitVec.eq_of_getLsbD_eq
  intro i hi
  simp only [BitVec.getLsbD_append, BitVec.getLsbD_extractLsb']
  grind

/-- The words of a header. -/
theorem HasBytes.words {ws : List Word} {i : Nat} {w : Word} (h : b.HasBytes p (ws.flatMap be32))
    (hw : ws[i]? = some w) :
    b.fdt32 (p + BitVec.ofNat 32 (4 * i)) = w := by
  induction ws generalizing p i with
  | nil => cases hw
  | cons v ws ih =>
    rw [List.flatMap_cons] at h
    obtain ⟨hfirst, hrest⟩ := h.append
    cases i with
    | zero =>
      obtain rfl := Option.some.inj hw
      simpa using hfirst.fdt32
    | succ i =>
      have hword := ih hrest hw
      rw [BitVec.add_assoc, ← BitVec.ofNat_add] at hword
      have hlen : (be32 v).length + 4 * i = 4 * (i + 1) := by
        simp [be32]
        omega
      rwa [hlen] at hword

theorem holds_of_hasBytes {bs : List Byte} (h : b.HasBytes (b.ptr (BitVec.ofNat 32 o)) bs)
    (hle : o + bs.length ≤ b.sizeDtStruct.toNat) : b.Holds o bs := by
  refine ⟨hle, fun i x hx => ?_⟩
  have hval := h i x hx
  rwa [Blob.ptr, BitVec.add_assoc, ← BitVec.ofNat_add] at hval

theorem lays_of_hasBytes (h : b.HasBytes (b.ptr (BitVec.ofNat 32 o)) (encode ts))
    (hle : o + extent ts ≤ b.sizeDtStruct.toNat) : b.Lays o ts := by
  induction ts generalizing o with
  | nil => exact hle
  | cons t ts ih =>
    rw [encode, List.flatMap_cons] at h
    obtain ⟨hfirst, hrest⟩ := h.append
    have hfit := t.le_size
    rw [extent_cons] at hle
    have hlen : (t.bytes ++ List.replicate (t.size - t.bytes.length) 0).length = t.size := by
      rw [List.length_append, List.length_replicate]
      omega
    rw [hlen, Blob.ptr, BitVec.add_assoc, ← BitVec.ofNat_add] at hrest
    exact ⟨holds_of_hasBytes hfirst.append.1 (by omega), ih hrest (by omega)⟩

theorem stringAt_of_hasBytes (h : b.HasBytes p strings) {nameoff : Word} (hnul : 0 ∈ strings.drop nameoff.toNat) :
    b.StringAt (p + nameoff) (nameIn strings nameoff) := by
  have hle : nameoff.toNat ≤ strings.length := by
    by_contra hlt
    rw [List.drop_eq_nil_of_le (by omega)] at hnul
    cases hnul
  have hdrop : b.HasBytes (p + nameoff) (strings.drop nameoff.toNat) := by
    rw [← List.take_append_drop nameoff.toNat strings] at h
    have hrest := h.append.2
    rwa [List.length_take, Nat.min_eq_left hle, BitVec.ofNat_toNat, BitVec.setWidth_eq] at hrest
  rw [eq_takeWhile_append hnul, ← List.singleton_append, ← List.append_assoc] at hdrop
  exact ⟨hdrop.append.1, not_mem_takeWhile⟩

/-- A memory that has the bytes of a tree holds it. -/
theorem represents_flatten {t : DeviceTree} (h : b.HasBytes b.fdt (flatten t.tokens strings))
    (hsize : 56 + extent t.tokens + strings.length < 2 ^ 31)
    (hroom : b.fdt.toNat + (56 + extent t.tokens + strings.length) < 2 ^ 32) (hnamed : ∀ tok ∈ t.tokens, tok.Named)
    (hstrings : ∀ n ∈ t.nodes, ∀ prop ∈ n.props, ∀ q ∈ prop, 0 ∈ strings.drop q.1.toNat) :
    b.Represents t (nameIn strings) := by
  obtain ⟨hheader, hblocks⟩ := h.append
  obtain ⟨hstruct, hstrs⟩ := hblocks.append
  have hwords := hheader.append.1
  have hword : ∀ i w, _ → b.fdt32 (b.fdt + BitVec.ofNat 32 (4 * i)) = w := fun i w => hwords.words (i := i) (w := w)
  have hmagic : b.magic = 0xd00dfeed := by
    have hval := hword 0 _ rfl
    have hp : b.fdt + BitVec.ofNat 32 (4 * 0) = b.fdt := by simp
    rwa [hp] at hval
  have hversion : b.version = 17 := hword 5 _ rfl
  have hcomp : b.lastCompVersion = 16 := hword 6 _ rfl
  have hoff : b.offDtStruct = 56 := hword 2 _ rfl
  have hoffStrings : b.offDtStrings = BitVec.ofNat 32 (56 + extent t.tokens) := hword 3 _ rfl
  have hsizeStruct : b.sizeDtStruct = BitVec.ofNat 32 (extent t.tokens) := hword 9 _ rfl
  have hstructSize : b.sizeDtStruct.toNat = extent t.tokens := by
    rw [hsizeStruct]
    exact Nat.mod_eq_of_lt (by omega)
  have hlen : (fdtHeader (extent t.tokens) strings.length).length = 56 := rfl
  refine ⟨⟨⟨by rw [hversion]; decide, by omega⟩, ?_⟩, ?_, ⟨rfl, hnamed, ?_⟩, ?_⟩
  · have hval : (56 : Word).toNat = 56 := rfl
    rw [hoff]
    omega
  · rw [checkHeader, hmagic, hversion, hcomp, if_pos rfl]
    decide
  · refine lays_of_hasBytes ?_ (by omega)
    rw [hlen] at hstruct
    have hptr : b.ptr (BitVec.ofNat 32 0) = b.fdt + BitVec.ofNat 32 56 := by
      rw [Blob.ptr, hoff]
      exact BitVec.add_zero _
    rwa [hptr]
  · intro n hn nameoff value hmem
    rw [hlen, length_encode, BitVec.add_assoc, ← BitVec.ofNat_add] at hstrs
    rw [Blob.string, hoffStrings]
    exact stringAt_of_hasBytes hstrs (hstrings n hn _ hmem _ rfl)

/-- The memory that has the bytes `bs` from the address 0 on. -/
def ofBytes (bs : List Byte) : Blob := ⟨0, fun a => (bs[a.toNat]?).getD 0⟩

theorem hasBytes_ofBytes {bs : List Byte} (h : bs.length ≤ 2 ^ 32) : (ofBytes bs).HasBytes 0 bs := by
  intro i x hx
  have hi := (List.getElem?_eq_some_iff.mp hx).1
  have hval : (0 + BitVec.ofNat 32 i : Word).toNat = i := by
    have hzero : (0 + BitVec.ofNat 32 i : Word) = BitVec.ofNat 32 i := by simp
    rw [hzero]
    exact Nat.mod_eq_of_lt (by omega)
  rw [ofBytes]
  dsimp only
  rw [hval, hx]
  rfl

/-! ## A tree

The root has two subnodes with a NOP between them, and the first one has a subnode of its own. -/

def sampleTree : DeviceTree where
  name := []
  props := [some (0, [0x61, 0, 0x62, 0x63, 0])]
  subnodes := .node [0x6d] [none, some (11, [0, 0, 0, 5])] (.node [0x78, 0x79, 0x7a, 0x7a] [] .nil .nil)
    (.nop (.node [0x6e] [] .nil .nil))

/-- The strings `compatible` and `phandle`. -/
def sampleStrings : List Byte :=
  ascii ['c', 'o', 'm', 'p', 'a', 't', 'i', 'b', 'l', 'e'] ++ [0] ++ (ascii ['p', 'h', 'a', 'n', 'd', 'l', 'e'] ++ [0])

def sample : Blob := ofBytes (flatten sampleTree.tokens sampleStrings)

/-- The root, and its first subnode. -/
def sampleRoot : Node := ⟨0, [], sampleTree.name, sampleTree.props, sampleTree.subnodes⟩

def sampleNode : Node := ⟨28, [0], [0x6d], [none, some (11, [0, 0, 0, 5])], .node [0x78, 0x79, 0x7a, 0x7a] [] .nil .nil⟩

theorem sampleRoot_mem : sampleRoot ∈ sampleTree.nodes := .head _

theorem sampleNode_mem : sampleNode ∈ sampleTree.nodes := .tail _ (.head _)

theorem sample_represents : sample.Represents sampleTree (nameIn sampleStrings) := by
  refine represents_flatten (hasBytes_ofBytes ?_) (by decide) (by decide) (by decide) (by decide)
  rw [length_flatten]
  decide

end Blob

end SeCloak
