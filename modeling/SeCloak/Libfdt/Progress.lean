import SeCloak.Libfdt.Blob
import SeCloak.Mm.VaSpace
import Mathlib.Logic.Relation

/-!
# Walks over malformed trees

Whatever bytes a structure block has, the functions of `fdt.c` read nothing outside of it
(`walk_inside`). `fdt_next_tag` moves on, with one exception: the length of a property is added to an
offset without a check, and a length of `-12` leads back to the property itself. `fdt_next_node` does not
return exactly if it gets to such a property (`nextNode_hangs_iff`).
-/

namespace SeCloak
open Misc

/-! ## One tag -/

namespace Blob

/-- The structure block has a size that the functions check (`fdt.c:81`), and is not larger than an `int`. -/
structure Sized (b : Blob) : Prop where
  version : 0x11 ≤ b.version
  size : b.sizeDtStruct.toNat < 2 ^ 31

variable {b : Blob} {offset len p tag next : Word} {n fuel : Nat}

theorem toNat_fdtTagalign {x : Word} (h : x.toNat + 3 < 2 ^ 32) :
    (fdtTagalign x).toNat = (x.toNat + 3) / 4 * 4 := by
  have hround : fdtTagalign x = roundUp x (BitVec.twoPow 32 2) := by
    have hfour : BitVec.twoPow 32 2 = 4 := by decide
    have hassoc : x + 4 - 1 = x + (4 - 1) := by bv_omega
    rw [fdtTagalign, roundUp, hfour, hassoc]
  rw [hround, toNat_roundUp (by decide) h]
  rfl

theorem Sized.offsetPtr_some (h : b.Sized) (hp : b.offsetPtr offset len = some p) :
    offset.toNat + len.toNat ≤ b.sizeDtStruct.toNat := by
  unfold offsetPtr at hp
  split at hp
  · cases hp
  next hin =>
    have hle : ¬ (offset + len < offset ∨ b.sizeDtStruct < offset + len) := fun hout => hin ⟨h.version, hout⟩
    have hsize := h.size
    simp only [BitVec.lt_def, not_or, Nat.not_lt] at hle
    have hadd : (offset + len).toNat = offset.toNat + len.toNat := by
      have hmod := BitVec.toNat_add offset len
      have h₁ := offset.isLt
      have h₂ := len.isLt
      omega
    omega

theorem offsetPtr_eq (hp : b.offsetPtr offset len = some p) : p = b.ptr offset := by
  unfold offsetPtr at hp
  split at hp
  · cases hp
  · split at hp
    · cases hp
    · exact (Option.some.inj hp).symm

theorem Sized.skipName_some (h : b.Sized) {stop : Word} (hs : b.skipName n offset = some stop) :
    offset.toNat < stop.toNat ∧ stop.toNat ≤ b.sizeDtStruct.toNat := by
  induction n generalizing offset with
  | zero => cases hs
  | succ n ih =>
    rw [skipName] at hs
    split at hs
    · cases hs
    next p hp =>
      have hle := h.offsetPtr_some hp
      have hone : (1 : Word).toNat = 1 := rfl
      have hsize := h.size
      have hadd : (offset + 1).toNat = offset.toNat + 1 := by
        have hmod := BitVec.toNat_add offset 1
        omega
      split at hs
      · obtain rfl := Option.some.inj hs
        omega
      · have hrest := ih hs
        omega

/-- What `fdt_next_tag` returns: an error, or a tag inside of the block that ends behind its start, but
for a property whose length leads backwards. -/
inductive TagAt (b : Blob) (offset : Word) : Word → Word → Prop
  | error {next : Word} (h : next = -fdtErrTruncated ∨ next = -fdtErrBadstructure) : TagAt b offset fdtEnd next
  | tag {tag stop : Word} (ht : tag ∈ [fdtBeginNode, fdtEndNode, fdtNop, fdtEnd])
    (hlo : offset.toNat + 4 ≤ stop.toNat) (hhi : stop.toNat ≤ b.sizeDtStruct.toNat) :
    TagAt b offset tag (fdtTagalign stop)
  | prop (hlo : offset.toNat ≤ (offset + 12 + b.fdt32 (b.ptr (offset + 4))).toNat)
    (hhi : (offset + 12 + b.fdt32 (b.ptr (offset + 4))).toNat ≤ b.sizeDtStruct.toNat)
    (hroom : offset.toNat + 8 ≤ b.sizeDtStruct.toNat) :
    TagAt b offset fdtProp (fdtTagalign (offset + 12 + b.fdt32 (b.ptr (offset + 4))))

/-- Where a tag ends, if it is not a property. -/
theorem Sized.tagEnd_some (h : b.Sized) {stop : Word} (hroom : offset.toNat + 4 ≤ b.sizeDtStruct.toNat)
    (hend : b.tagEnd tag (offset + 4) = some stop) :
    (tag ∈ [fdtBeginNode, fdtEndNode, fdtNop, fdtEnd] ∧ offset.toNat + 4 ≤ stop.toNat) ∨
      (tag = fdtProp ∧ stop = offset + 12 + b.fdt32 (b.ptr (offset + 4)) ∧
        offset.toNat + 8 ≤ b.sizeDtStruct.toNat) := by
  have hsize := h.size
  have hfour : (offset + 4).toNat = offset.toNat + 4 := by
    have hmod := BitVec.toNat_add offset 4
    have hval : (4 : Word).toNat = 4 := rfl
    omega
  unfold tagEnd at hend
  split at hend
  next hbegin =>
    have hskip := h.skipName_some hend
    exact .inl ⟨by simp [hbegin], by omega⟩
  · split at hend
    next hprop =>
      split at hend
      · cases hend
      next lenp hlen =>
        obtain rfl := Option.some.inj hend
        have hin := h.offsetPtr_some hlen
        have hval : (4 : Word).toNat = 4 := rfl
        rw [offsetPtr_eq hlen]
        exact .inr ⟨hprop, by bv_omega, by omega⟩
    · split at hend
      next hother =>
        obtain rfl := Option.some.inj hend
        refine .inl ⟨?_, by omega⟩
        rcases hother with rfl | rfl | rfl <;> simp
      · cases hend

theorem Sized.nextTag (h : b.Sized) : b.TagAt offset (b.nextTag offset).1 (b.nextTag offset).2 := by
  unfold Blob.nextTag
  split
  · exact .error (.inl rfl)
  next tagp htag =>
    split
    · exact .error (.inr rfl)
    next stop hend =>
      split
      · exact .error (.inr rfl)
      next q hin =>
        have hroom := h.offsetPtr_some htag
        have hval : (4 : Word).toNat = 4 := rfl
        have hinside := h.offsetPtr_some hin
        have hstop : offset.toNat ≤ stop.toNat ∧ stop.toNat ≤ b.sizeDtStruct.toNat := by
          have hsub : offset + (stop - offset) = stop := by bv_omega
          have hmod := BitVec.toNat_add offset (stop - offset)
          rw [hsub] at hmod
          have hsize := h.size
          omega
        rcases h.tagEnd_some (by omega) hend with ⟨hmem, hlo⟩ | ⟨hprop, rfl, hroom'⟩
        · exact .tag hmem hlo hstop.2
        · rw [hprop]
          exact .prop hstop.1 hstop.2 hroom'

/-- A property whose length leads from the end of its header back to its start. -/
def Stuck (b : Blob) (offset : Word) : Prop :=
  (b.nextTag offset).1 = fdtProp ∧ b.fdt32 (b.ptr (offset + 4)) = -12

/-- A tag at an aligned offset is followed by an aligned one. -/
theorem Sized.next_aligned (h : b.Sized) (halign : offset.toNat % 4 = 0) (htag : (b.nextTag offset).1 ≠ fdtEnd) :
    (b.nextTag offset).2.toNat % 4 = 0 ∧ (b.nextTag offset).2.toNat ≤ b.sizeDtStruct.toNat + 3 ∧
      (b.Stuck offset → (b.nextTag offset).2 = offset) ∧
      (¬ b.Stuck offset → offset.toNat + 4 ≤ (b.nextTag offset).2.toNat) := by
  have hat := @Sized.nextTag b offset h
  have hsize := h.size
  unfold Stuck
  generalize (b.nextTag offset).1 = tag at hat htag ⊢
  generalize (b.nextTag offset).2 = next at hat ⊢
  cases hat with
  | error => exact absurd rfl htag
  | @tag _ stop ht hlo hhi =>
    have hnext := @toNat_fdtTagalign stop (by omega)
    have hprop : ¬ tag = fdtProp := by
      rintro rfl
      revert ht
      decide
    rw [hnext]
    refine ⟨by omega, by omega, fun hstuck => absurd hstuck.1 hprop, fun _ => by omega⟩
  | prop hlo hhi hroom =>
    generalize hstop : offset + 12 + b.fdt32 (b.ptr (offset + 4)) = stop at hlo hhi ⊢
    have hnext := @toNat_fdtTagalign stop (by omega)
    refine ⟨by omega, by omega, fun hstuck => ?_, fun hstuck => ?_⟩
    · have hsame : stop = offset := by
        rw [← hstop, hstuck.2]
        bv_omega
      subst hsame
      apply BitVec.eq_of_toNat_eq
      omega
    · have hne : stop.toNat ≠ offset.toNat := by
        intro heq
        have hsame : stop = offset := BitVec.eq_of_toNat_eq heq
        exact hstuck ⟨rfl, by bv_omega⟩
      omega

end Blob

/-! ## The next node -/

namespace Blob

/-- A round of the loop of `fdt_next_node` that is followed by another one. -/
inductive Skips (b : Blob) : Word × Option Int → Word × Option Int → Prop
  | pass {offset : Word} {depth : Option Int} (htag : (b.nextTag offset).1 = fdtProp ∨ (b.nextTag offset).1 = fdtNop) :
    Skips b (offset, depth) ((b.nextTag offset).2, depth)
  | leave {offset : Word} {depth : Option Int} (htag : (b.nextTag offset).1 = fdtEndNode)
    (hdepth : ¬ ∃ d ∈ depth, d - 1 < 0) : Skips b (offset, depth) ((b.nextTag offset).2, depth.map (· - 1))

section NextNode

variable {b : Blob} {offset : Word} {depth : Option Int} {fuel : Nat} {x y : Word × Option Int}

theorem nextNodeFrom_skip (h : b.Skips x y) :
    b.nextNodeFrom (fuel + 1) x.1 x.2 = b.nextNodeFrom fuel y.1 y.2 := by
  cases h with
  | pass htag =>
    simp only [nextNodeFrom]
    rw [if_pos htag]
  | leave htag hdepth =>
    simp only [nextNodeFrom, htag]
    rw [if_neg (by decide), if_neg (by decide), if_pos trivial, if_neg hdepth]

/-- A round is followed by another one, or it is the last one. -/
theorem skips_or_returns (b : Blob) (x : Word × Option Int) :
    (∃ y, b.Skips x y) ∨ ∃ r, ∀ fuel, b.nextNodeFrom (fuel + 1) x.1 x.2 = some r := by
  obtain ⟨offset, depth⟩ := x
  by_cases hpass : (b.nextTag offset).1 = fdtProp ∨ (b.nextTag offset).1 = fdtNop
  · exact .inl ⟨_, .pass hpass⟩
  by_cases hbegin : (b.nextTag offset).1 = fdtBeginNode
  · right
    refine ⟨(offset, depth.map (· + 1)), fun fuel => ?_⟩
    simp only [nextNodeFrom]
    rw [if_neg hpass, if_pos hbegin]
  by_cases hleave : (b.nextTag offset).1 = fdtEndNode
  · by_cases hdepth : ∃ d ∈ depth, d - 1 < 0
    · right
      refine ⟨((b.nextTag offset).2, depth.map (· - 1)), fun fuel => ?_⟩
      simp only [nextNodeFrom]
      rw [if_neg hpass, if_neg hbegin, if_pos hleave, if_pos hdepth]
    · exact .inl ⟨_, .leave hleave hdepth⟩
  · right
    simp only [nextNodeFrom, hpass, hbegin, hleave, if_false]
    split
    · exact ⟨_, fun _ => rfl⟩
    · exact ⟨_, fun _ => rfl⟩

theorem Skips.next (h : b.Sized) (hskip : b.Skips x y) (halign : x.1.toNat % 4 = 0) :
    y.1.toNat % 4 = 0 ∧ y.1.toNat ≤ b.sizeDtStruct.toNat + 3 ∧
      (b.Stuck x.1 → y.1 = x.1) ∧ (¬ b.Stuck x.1 → x.1.toNat + 4 ≤ y.1.toNat) := by
  have htag : (b.nextTag x.1).1 ≠ fdtEnd ∧ y.1 = (b.nextTag x.1).2 := by
    cases hskip with
    | pass htag =>
      refine ⟨?_, rfl⟩
      rcases htag with htag | htag <;> rw [htag] <;> decide
    | leave htag hdepth =>
      refine ⟨?_, rfl⟩
      rw [htag]
      decide
  rw [htag.2]
  exact h.next_aligned halign htag.1

theorem nextNodeFrom_stuck (h : b.Sized) (halign : offset.toNat % 4 = 0) (hstuck : b.Stuck offset) :
    b.nextNodeFrom fuel offset depth = none := by
  induction fuel with
  | zero => rfl
  | succ fuel ih =>
    have hskip : b.Skips (offset, depth) ((b.nextTag offset).2, depth) := .pass (.inl hstuck.1)
    have hback : (b.nextTag offset).2 = offset := (hskip.next h halign).2.2.1 hstuck
    rw [hback] at hskip
    exact (nextNodeFrom_skip hskip).trans ih

/-- A loop that gets to such a property goes on for ever. -/
theorem nextNodeFrom_reaches (h : b.Sized) (hreach : Relation.ReflTransGen b.Skips x y)
    (halign : x.1.toNat % 4 = 0) (hstuck : b.Stuck y.1) : b.nextNodeFrom fuel x.1 x.2 = none := by
  induction hreach using Relation.ReflTransGen.head_induction_on generalizing fuel with
  | refl => exact nextNodeFrom_stuck h halign hstuck
  | head hskip _ ih =>
    cases fuel with
    | zero => rfl
    | succ fuel =>
      rw [nextNodeFrom_skip hskip]
      exact ih (hskip.next h halign).1

/-- Without such a property in its way, the loop ends. -/
theorem nextNodeFrom_returns (h : b.Sized) (halign : x.1.toNat % 4 = 0)
    (hle : x.1.toNat ≤ b.sizeDtStruct.toNat + 3)
    (hfree : ∀ y, Relation.ReflTransGen b.Skips x y → ¬ b.Stuck y.1)
    (hfuel : b.sizeDtStruct.toNat + 8 ≤ x.1.toNat + 4 * fuel) :
    (b.nextNodeFrom fuel x.1 x.2).isSome := by
  induction fuel generalizing x with
  | zero => omega
  | succ fuel ih =>
    rcases skips_or_returns b x with ⟨y, hskip⟩ | ⟨r, hr⟩
    · obtain ⟨halign', hle', -, hlt⟩ := hskip.next h halign
      have hlt := hlt (hfree x .refl)
      rw [nextNodeFrom_skip hskip]
      exact ih halign' hle' (fun z hz => hfree z (.head hskip hz)) (by omega)
    · rw [hr fuel]
      rfl

/-- Where the loop starts. -/
def Enters (b : Blob) (offset start : Word) : Prop :=
  (offset.toInt < 0 ∧ start = 0) ∨
    (0 ≤ offset.toInt ∧ 0 ≤ (b.checkNodeOffset offset).toInt ∧ start = b.checkNodeOffset offset)

theorem Enters.aligned (h : b.Sized) {start : Word} (henters : b.Enters offset start) :
    start.toNat % 4 = 0 ∧ start.toNat ≤ b.sizeDtStruct.toNat + 3 := by
  rcases henters with ⟨-, rfl⟩ | ⟨-, hnode, rfl⟩
  · exact ⟨rfl, Nat.zero_le _⟩
  · unfold checkNodeOffset checkOffset at hnode ⊢
    split at hnode
    · exact absurd hnode (by decide)
    next hcheck =>
      simp only [not_or, not_not] at hcheck
      obtain ⟨hle, hmod, htag⟩ := hcheck
      have halign : offset.toNat % 4 = 0 := by
        have hval := congrArg BitVec.toNat hmod
        rwa [BitVec.toNat_umod] at hval
      rw [if_neg (by simp only [not_or, not_not]; exact ⟨hle, hmod, htag⟩)]
      have hne : (b.nextTag offset).1 ≠ fdtEnd := by
        rw [htag]
        decide
      have hnext := h.next_aligned halign hne
      exact ⟨hnext.1, hnext.2.1⟩

end NextNode

/-- `fdt_next_node` does not return exactly if the tags that it skips lead to a property of length `-12`. -/
theorem nextNode_hangs_iff {b : Blob} {offset : Word} {depth : Option Int} {fuel : Nat} (h : b.Sized)
    (hfuel : b.sizeDtStruct.toNat + 8 ≤ 4 * fuel) : b.nextNode fuel offset depth = none ↔
      ∃ start y, b.Enters offset start ∧ Relation.ReflTransGen b.Skips (start, depth) y ∧ b.Stuck y.1 := by
  have hloop : ∀ start, b.Enters offset start → (b.nextNodeFrom fuel start depth = none ↔
      ∃ y, Relation.ReflTransGen b.Skips (start, depth) y ∧ b.Stuck y.1) := by
    intro start henters
    have halign := henters.aligned h
    constructor
    · intro hnone
      by_contra hfree
      have hsome := @nextNodeFrom_returns b fuel (start, depth) h halign.1 halign.2
        (fun y hy hstuck => hfree ⟨y, hy, hstuck⟩) (by omega)
      rw [hnone] at hsome
      cases hsome
    · rintro ⟨y, hreach, hstuck⟩
      exact nextNodeFrom_reaches h hreach halign.1 hstuck
  unfold nextNode
  split
  next hpos =>
    split
    next hneg =>
      simp only [reduceCtorEq, false_iff, not_exists, not_and]
      rintro start y (⟨hlt, -⟩ | ⟨-, hnode, -⟩)
      · omega
      · omega
    next hnode =>
      have henters : b.Enters offset (b.checkNodeOffset offset) := .inr ⟨hpos, by omega, rfl⟩
      rw [hloop _ henters]
      constructor
      · rintro ⟨y, hy⟩
        exact ⟨_, y, henters, hy⟩
      · rintro ⟨start, y, hstart, hy⟩
        rcases hstart with ⟨hlt, -⟩ | ⟨-, -, rfl⟩
        · omega
        · exact ⟨y, hy⟩
  next hpos =>
    have henters : b.Enters offset 0 := .inl ⟨by omega, rfl⟩
    rw [hloop _ henters]
    constructor
    · rintro ⟨y, hy⟩
      exact ⟨_, y, henters, hy⟩
    · rintro ⟨start, y, hstart, hy⟩
      rcases hstart with ⟨-, rfl⟩ | ⟨hle, -⟩
      · exact ⟨y, hy⟩
      · omega

/-- A root with a property of length `-12`. -/
def backward : Blob := ⟨0, fun a => (([
  0xd0, 0x0d, 0xfe, 0xed, 0, 0, 0, 0x44, 0, 0, 0, 0x28, 0, 0, 0, 0x44, 0, 0, 0, 0x28,
  0, 0, 0, 17, 0, 0, 0, 16, 0, 0, 0, 0, 0, 0, 0, 0, 0, 0, 0, 28,
  0, 0, 0, 1, 0, 0, 0, 0, 0, 0, 0, 3, 0xff, 0xff, 0xff, 0xf4, 0, 0, 0, 0, 0, 0, 0, 2,
  0, 0, 0, 9] : List Byte)[a.toNat]?).getD 0⟩

theorem nextNode_hangs_iff_backward : backward.nextNode (2 ^ 30) 0 none = none :=
  (nextNode_hangs_iff ⟨by decide, by decide⟩ (by decide)).mpr
    ⟨8, (8, none), .inr ⟨by decide, by decide, by decide⟩, .refl, by decide, by decide⟩

/-! ## Reads -/

/-- The two trees have the same bytes in the structure block. -/
structure SameStruct (b b' : Blob) : Prop where
  fdt : b'.fdt = b.fdt
  version : b'.version = b.version
  offDtStruct : b'.offDtStruct = b.offDtStruct
  sizeDtStruct : b'.sizeDtStruct = b.sizeDtStruct
  bytes : ∀ offset : Word, offset < b.sizeDtStruct → b'.mem (b.ptr offset) = b.mem (b.ptr offset)

section Inside

variable {b b' : Blob} {offset len p tag : Word} {n fuel : Nat} {depth : Option Int} {d : Int}

theorem SameStruct.ptr (h : b.SameStruct b') : b'.ptr offset = b.ptr offset := by
  rw [Blob.ptr, Blob.ptr, h.fdt, h.offDtStruct]

theorem SameStruct.offsetPtr (h : b.SameStruct b') : b'.offsetPtr offset len = b.offsetPtr offset len := by
  unfold Blob.offsetPtr
  rw [h.version, h.sizeDtStruct, h.ptr]

theorem SameStruct.mem (h : b.SameStruct b') (hs : b.Sized) {i : Word} (hp : b.offsetPtr offset len = some p)
    (hi : i < len) : b'.mem (p + i) = b.mem (p + i) := by
  have hin := hs.offsetPtr_some hp
  have hsize := hs.size
  rw [offsetPtr_eq hp, Blob.ptr, BitVec.add_assoc]
  apply h.bytes
  rw [BitVec.lt_def] at hi ⊢
  have hmod := BitVec.toNat_add offset i
  omega

theorem SameStruct.mem_first (h : b.SameStruct b') (hs : b.Sized) (hp : b.offsetPtr offset len = some p)
    (hlen : 0 < len) : b'.mem p = b.mem p := by
  have hzero := h.mem hs hp hlen
  have hp' : p + 0 = p := by simp
  rwa [hp'] at hzero

theorem SameStruct.fdt32 (h : b.SameStruct b') (hs : b.Sized) (hp : b.offsetPtr offset 4 = some p) :
    b'.fdt32 p = b.fdt32 p := by
  rw [Blob.fdt32, Blob.fdt32, h.mem_first hs hp (by decide), h.mem hs hp (by decide), h.mem hs hp (by decide),
    h.mem hs hp (by decide)]

theorem SameStruct.skipName (h : b.SameStruct b') (hs : b.Sized) : b'.skipName n offset = b.skipName n offset := by
  induction n generalizing offset with
  | zero => rfl
  | succ n ih =>
    rw [Blob.skipName, Blob.skipName, h.offsetPtr, ih]
    cases hp : b.offsetPtr offset 1 with
    | none => rfl
    | some p =>
      dsimp only
      rw [h.mem_first hs hp (by decide)]

theorem SameStruct.tagEnd (h : b.SameStruct b') (hs : b.Sized) : b'.tagEnd tag offset = b.tagEnd tag offset := by
  unfold Blob.tagEnd
  rw [h.skipName hs, h.offsetPtr]
  cases hp : b.offsetPtr offset 4 with
  | none => rfl
  | some lenp =>
    dsimp only
    rw [h.fdt32 hs hp]

theorem SameStruct.nextTag (h : b.SameStruct b') (hs : b.Sized) : b'.nextTag offset = b.nextTag offset := by
  unfold Blob.nextTag
  rw [h.offsetPtr]
  cases hp : b.offsetPtr offset 4 with
  | none => rfl
  | some tagp =>
    dsimp only
    rw [h.fdt32 hs hp, h.tagEnd hs]
    simp only [h.offsetPtr]

theorem SameStruct.nextNodeFrom (h : b.SameStruct b') (hs : b.Sized) :
    b'.nextNodeFrom fuel offset depth = b.nextNodeFrom fuel offset depth := by
  induction fuel generalizing offset depth with
  | zero => rfl
  | succ fuel ih =>
    rw [Blob.nextNodeFrom, Blob.nextNodeFrom, h.nextTag hs]
    simp only [ih]

theorem SameStruct.nextNode (h : b.SameStruct b') (hs : b.Sized) :
    b'.nextNode fuel offset depth = b.nextNode fuel offset depth := by
  unfold Blob.nextNode checkNodeOffset checkOffset
  simp only [h.nextTag hs, h.nextNodeFrom hs]

theorem SameStruct.nextSubnodeFrom (h : b.SameStruct b') (hs : b.Sized) :
    b'.nextSubnodeFrom fuel offset d = b.nextSubnodeFrom fuel offset d := by
  suffices hloop : ∀ n offset d, b'.nextSubnodeFrom n offset d = b.nextSubnodeFrom n offset d from hloop _ _ _
  intro n
  induction n with
  | zero =>
    intro offset d
    rfl
  | succ n ih =>
    intro offset d
    rw [Blob.nextSubnodeFrom, Blob.nextSubnodeFrom, h.nextNode hs]
    simp only [ih]

end Inside

/-- Whatever the bytes of a tree are, a walk reads nothing outside of its header and its structure block. -/
theorem walk_inside {b b' : Blob} (hs : b.Sized) (h : b.SameStruct b') (fuel : Nat) (offset : Word) :
    (∀ depth, b'.nextNode fuel offset depth = b.nextNode fuel offset depth) ∧
      b'.firstSubnode fuel offset = b.firstSubnode fuel offset ∧
      b'.nextSubnode fuel offset = b.nextSubnode fuel offset := by
  refine ⟨fun depth => h.nextNode hs, ?_, h.nextSubnodeFrom hs⟩
  unfold firstSubnode
  rw [h.nextNode hs]

/-- The tree above with another byte behind it. -/
def spilled : Blob := ⟨0, fun a => if a = 0x100 then 1 else backward.mem a⟩

theorem sameStruct_spilled : backward.SameStruct spilled := by
  refine ⟨rfl, by decide, by decide, by decide, fun offset hlt => if_neg ?_⟩
  have hsize : backward.sizeDtStruct = 28 := by decide
  have hptr : backward.ptr offset = 40 + offset := by
    have hoff : backward.fdt + backward.offDtStruct = 40 := by decide
    rw [ptr, hoff]
  rw [hptr]
  rw [hsize] at hlt
  bv_omega

theorem walk_inside_spilled : spilled.firstSubnode 9 0 = backward.firstSubnode 9 0 :=
  (walk_inside ⟨by decide, by decide⟩ sameStruct_spilled 9 0).2.1

end Blob

end SeCloak
