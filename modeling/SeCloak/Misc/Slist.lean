import Mathlib.Data.Finset.Card
import Mathlib.Data.Finset.Insert
import Mathlib.Logic.Function.Basic
import Mathlib.Tactic.Common

/-!
# Intrusive singly linked lists

The elements of an `Slist` carry the link to the next one themselves, so that a list is a head and
a link for every element there is. An operation that follows the links is given a bound on its
steps and has no result if it runs out of them or follows NULL.

`Represents l xs` says that the list is `xs`, in this order, and `Holds l X` that it has each
element of `X` once. For each operation a theorem says what the list is afterwards.
-/

namespace SeCloak.Misc

/-- The head of a list and the links of all elements. -/
structure Slist (η : Type) where
  first : Option η
  next : η → Option η

namespace Slist

variable {η : Type}

/-- The elements from `p` on are `xs`. -/
def Chain (next : η → Option η) : Option η → List η → Prop
  | p, [] => p = none
  | p, x :: xs => p = some x ∧ Chain next (next x) xs

def Represents (l : Slist η) (xs : List η) : Prop := Chain l.next l.first xs

section Chain

variable {next next' : η → Option η} {p : Option η} {xs ys : List η}

theorem Chain.congr (h : Chain next p xs) (hnext : ∀ x ∈ xs, next' x = next x) :
    Chain next' p xs := by
  induction xs generalizing p with
  | nil => exact h
  | cons x xs ih =>
    obtain ⟨hp, h⟩ := h
    refine ⟨hp, ?_⟩
    rw [hnext x List.mem_cons_self]
    exact ih h fun y hy => hnext y (List.mem_cons_of_mem x hy)

theorem Chain.head (h : Chain next p xs) : p = xs.head? := by
  cases xs with
  | nil => exact h
  | cons x xs => exact h.1

/-- The end of a chain is a chain. -/
theorem Chain.tail (h : Chain next p (xs ++ ys)) : Chain next ys.head? ys := by
  induction xs generalizing p with
  | nil => exact h.head ▸ h
  | cons x xs ih => exact ih h.2

theorem Represents.eq_nil_iff {l : Slist η} (h : l.Represents xs) : l.first = none ↔ xs = [] := by
  rw [Chain.head h, List.head?_eq_none_iff]

end Chain

variable [DecidableEq η]

/-! ## Insertion -/

/-- `SLIST_INSERT_HEAD`. -/
def insertHead (l : Slist η) (x : η) : Slist η := ⟨some x, Function.update l.next x l.first⟩

theorem Represents.insertHead {l : Slist η} {xs : List η} (h : l.Represents xs) {x : η}
    (hx : x ∉ xs) : (l.insertHead x).Represents (x :: xs) := by
  refine ⟨rfl, ?_⟩
  change Chain (Function.update l.next x l.first) (Function.update l.next x l.first x) xs
  rw [Function.update_self]
  refine Chain.congr h fun y hy => ?_
  exact Function.update_of_ne (ne_of_mem_of_not_mem hy hx) _ _

/-! ## Removal -/

/-- The loop of `SLIST_REMOVE` from the element `cur` on: the links after it. -/
def unlink (next : η → Option η) (x : η) : Nat → η → Option (η → Option η)
  | 0, _ => none
  | fuel + 1, cur =>
    if next cur = some x then some (Function.update next cur (next x))
    else
      match next cur with
      | none => none
      | some cur => unlink next x fuel cur

/-- `SLIST_REMOVE`. -/
def remove (fuel : Nat) (l : Slist η) (x : η) : Option (Slist η) :=
  if l.first = some x then some { l with first := l.next x }
  else
    match l.first with
    | none => none
    | some cur => (unlink l.next x fuel cur).map fun next => { l with next := next }

/-- The link of the element that is removed stays, and so do all others but one. -/
theorem unlink_spec {next : η → Option η} {x cur : η} {ys : List η} {fuel : Nat}
    (h : Chain next (next cur) ys) (hnodup : (cur :: ys).Nodup) (hx : x ∈ ys)
    (hfuel : ys.length ≤ fuel) :
    ∃ next', unlink next x fuel cur = some next' ∧ Chain next' (next' cur) (ys.erase x) ∧
      next' x = next x ∧ ∀ z, z ∉ cur :: ys → next' z = next z := by
  induction ys generalizing cur fuel with
  | nil => cases hx
  | cons y ys ih =>
    obtain ⟨hcur, h⟩ := h
    obtain ⟨hnotin, hnodup⟩ := List.nodup_cons.mp hnodup
    obtain ⟨fuel, rfl⟩ : ∃ m, fuel = m + 1 := ⟨fuel - 1, by grind⟩
    by_cases hyx : y = x
    · subst hyx
      refine ⟨Function.update next cur (next y), if_pos hcur, ?_, ?_, fun z hz => ?_⟩
      · rw [List.erase_cons_head, Function.update_self]
        refine h.congr fun z hz => Function.update_of_ne ?_ _ _
        exact ne_of_mem_of_not_mem (List.mem_cons_of_mem y hz) hnotin
      · exact Function.update_of_ne (ne_of_mem_of_not_mem List.mem_cons_self hnotin) _ _
      · exact Function.update_of_ne (List.ne_of_not_mem_cons hz) _ _
    · have hxys : x ∈ ys := (List.mem_cons.mp hx).resolve_left (Ne.symm hyx)
      have hlen : ys.length ≤ fuel := Nat.le_of_succ_le_succ hfuel
      obtain ⟨next', hunlink, hchain, hnextx, hframe⟩ := ih h hnodup hxys hlen
      refine ⟨next', ?_, ?_, hnextx, fun z hz => hframe z fun hz' => hz (List.mem_cons_of_mem cur hz')⟩
      · rw [unlink, if_neg (by rw [hcur]; exact fun heq => hyx (Option.some.inj heq)), hcur]
        exact hunlink
      · rw [List.erase_cons_tail (by simpa using hyx)]
        exact ⟨(hframe cur hnotin).trans hcur, hchain⟩

theorem Represents.remove {l : Slist η} {xs : List η} (h : l.Represents xs) (hnodup : xs.Nodup)
    {x : η} (hx : x ∈ xs) {fuel : Nat} (hfuel : xs.length ≤ fuel) :
    ∃ l', l.remove fuel x = some l' ∧ l'.Represents (xs.erase x) ∧ l'.next x = l.next x := by
  cases xs with
  | nil => cases hx
  | cons y ys =>
    obtain ⟨hfirst, h⟩ := h
    by_cases hyx : y = x
    · subst hyx
      refine ⟨{ l with first := l.next y }, if_pos hfirst, ?_, rfl⟩
      rw [List.erase_cons_head]
      exact h
    · have hxys : x ∈ ys := (List.mem_cons.mp hx).resolve_left (Ne.symm hyx)
      have hlen : ys.length ≤ fuel := Nat.le_of_succ_le hfuel
      obtain ⟨next', hunlink, hchain, hnextx, -⟩ := unlink_spec h hnodup hxys hlen
      refine ⟨{ l with next := next' }, ?_, ?_, hnextx⟩
      · rw [Slist.remove, if_neg (by rw [hfirst]; exact fun heq => hyx (Option.some.inj heq)), hfirst]
        exact congrArg (Option.map _) hunlink
      · rw [List.erase_cons_tail (by simpa using hyx)]
        exact ⟨hfirst, hchain⟩

/-! ## Removal on the way -/

/-- `SLIST_FOREACH` from the element `p` on, where the element `x` is removed when the loop gets to
it; the link of `x` is read after that. -/
def removeEach (bound : Nat) (x : η) : Nat → Option η → Slist η → Option (Slist η)
  | _, none, l => some l
  | 0, some _, _ => none
  | fuel + 1, some h, l =>
    if h = x then
      match l.remove bound x with
      | none => none
      | some l => removeEach bound x fuel (l.next h) l
    else removeEach bound x fuel (l.next h) l

/-- Without `x` the loop changes nothing. -/
theorem removeEach_of_not_mem {bound : Nat} {x : η} {l : Slist η} {p : Option η} {ys : List η}
    {fuel : Nat} (h : Chain l.next p ys) (hx : x ∉ ys) (hfuel : ys.length ≤ fuel) :
    removeEach bound x fuel p l = some l := by
  induction ys generalizing p fuel with
  | nil =>
    subst h
    cases fuel <;> rfl
  | cons y ys ih =>
    obtain ⟨rfl, h⟩ := h
    obtain ⟨fuel, rfl⟩ : ∃ m, fuel = m + 1 := ⟨fuel - 1, by grind⟩
    obtain ⟨hyx, hx⟩ := List.ne_and_not_mem_of_not_mem_cons hx
    rw [removeEach, if_neg (Ne.symm hyx)]
    exact ih h hx (Nat.le_of_succ_le_succ hfuel)

theorem removeEach_from {bound : Nat} {x : η} {l : Slist η} {p : Option η} {pre ys : List η}
    {fuel : Nat} (h : l.Represents (pre ++ ys)) (hp : Chain l.next p ys)
    (hnodup : (pre ++ ys).Nodup) (hx : x ∈ ys) (hbound : (pre ++ ys).length ≤ bound)
    (hfuel : ys.length ≤ fuel) :
    ∃ l', removeEach bound x fuel p l = some l' ∧ l'.Represents ((pre ++ ys).erase x) := by
  induction ys generalizing pre p fuel with
  | nil => cases hx
  | cons y ys ih =>
    obtain ⟨rfl, hp⟩ := hp
    obtain ⟨fuel, rfl⟩ : ∃ m, fuel = m + 1 := ⟨fuel - 1, by grind⟩
    have hlen : ys.length ≤ fuel := Nat.le_of_succ_le_succ hfuel
    by_cases hyx : y = x
    · subst hyx
      have hpre : y ∉ pre := fun hy => List.disjoint_of_nodup_append hnodup hy hx
      have hys : y ∉ ys := (List.nodup_cons.mp hnodup.of_append_right).1
      have herase : (pre ++ y :: ys).erase y = pre ++ ys := by
        rw [List.erase_append_right _ hpre, List.erase_cons_head]
      obtain ⟨l', hremove, hrep, hnext⟩ :=
        h.remove hnodup (List.mem_append_right pre hx) hbound
      refine ⟨l', ?_, hrep⟩
      rw [removeEach, if_pos rfl, hremove]
      -- the rest of the list is where the link of the removed element still leads
      have hrest : Chain l'.next (l'.next y) ys := by
        rw [hnext, hp.head]
        rw [herase] at hrep
        exact Chain.tail hrep
      exact removeEach_of_not_mem hrest hys hlen
    · have hxys : x ∈ ys := (List.mem_cons.mp hx).resolve_left (Ne.symm hyx)
      rw [removeEach, if_neg hyx]
      rw [List.append_cons] at h hnodup hbound ⊢
      exact ih h hp hnodup hxys hbound hlen

/-- The loop over the whole list removes `x` and nothing else. -/
theorem Represents.removeEach {l : Slist η} {xs : List η} (h : l.Represents xs)
    (hnodup : xs.Nodup) (x : η) {bound : Nat} (hbound : xs.length ≤ bound) :
    ∃ l', Slist.removeEach bound x bound l.first l = some l' ∧ l'.Represents (xs.erase x) := by
  by_cases hx : x ∈ xs
  · have h' : l.Represents ([] ++ xs) := h
    exact removeEach_from h' h hnodup hx hbound hbound
  · rw [List.erase_of_not_mem hx]
    exact ⟨l, removeEach_of_not_mem h hx hbound, h⟩

/-! ## Sets of elements -/

/-- The elements of the list are those of `X`, and each of them is there once. -/
def Holds (l : Slist η) (X : Finset η) : Prop :=
  ∃ xs, l.Represents xs ∧ xs.Nodup ∧ ∀ x, x ∈ xs ↔ x ∈ X

section Holds

variable {l : Slist η} {X : Finset η} {xs : List η}

theorem card_eq_length (hnodup : xs.Nodup) (hmem : ∀ x, x ∈ xs ↔ x ∈ X) : X.card = xs.length := by
  have hX : X = xs.toFinset := by
    ext x
    rw [List.mem_toFinset, hmem]
  rw [hX, List.toFinset_card_of_nodup hnodup]

omit [DecidableEq η] in
theorem holds_empty (h : l.first = none) : l.Holds ∅ := ⟨[], h, List.nodup_nil, by simp⟩

theorem Holds.first_eq_none_iff (h : l.Holds X) : l.first = none ↔ X = ∅ := by
  obtain ⟨xs, hrep, hnodup, hmem⟩ := h
  rw [hrep.eq_nil_iff, ← Finset.card_eq_zero, card_eq_length hnodup hmem, List.length_eq_zero_iff]

theorem Holds.insertHead (h : l.Holds X) {x : η} (hx : x ∉ X) :
    (l.insertHead x).Holds (insert x X) := by
  obtain ⟨xs, hrep, hnodup, hmem⟩ := h
  have hxs : x ∉ xs := fun hin => hx ((hmem x).mp hin)
  refine ⟨x :: xs, hrep.insertHead hxs, List.nodup_cons.mpr ⟨hxs, hnodup⟩, fun y => ?_⟩
  rw [List.mem_cons, Finset.mem_insert, hmem]

theorem Holds.removeEach (h : l.Holds X) (x : η) {bound : Nat} (hbound : X.card ≤ bound) :
    ∃ l', Slist.removeEach bound x bound l.first l = some l' ∧ l'.Holds (X.erase x) := by
  obtain ⟨xs, hrep, hnodup, hmem⟩ := h
  rw [card_eq_length hnodup hmem] at hbound
  obtain ⟨l', hremove, hrep'⟩ := hrep.removeEach hnodup x hbound
  refine ⟨l', hremove, xs.erase x, hrep', hnodup.erase x, fun y => ?_⟩
  rw [hnodup.mem_erase_iff, Finset.mem_erase, hmem]

end Holds

end Slist

end SeCloak.Misc
