import Mathlib.Data.List.TakeWhile
import Mathlib.Data.List.Basic
import Mathlib.Tactic.Common

/-!
# Strings in one array

`SplitsInto z xs ss` says that `xs` is the strings `ss` one after the other, each with the terminator
`z` behind it and without one inside. There is at most one such list of strings, and there is one
exactly if `xs` is empty or ends with the terminator.
-/

namespace SeCloak.Misc

variable {α : Type} {z : α} {xs s : List α} {ss : List (List α)}

def SplitsInto (z : α) (xs : List α) (ss : List (List α)) : Prop :=
  xs = ss.flatMap (· ++ [z]) ∧ ∀ s ∈ ss, z ∉ s

@[simp] theorem splitsInto_nil : SplitsInto z [] ss ↔ ss = [] := by
  cases ss <;> simp [SplitsInto]

/-- The first string, and the rest behind its terminator. -/
theorem splitsInto_cons : SplitsInto z xs (s :: ss) ↔
    ∃ rest, xs = s ++ z :: rest ∧ z ∉ s ∧ SplitsInto z rest ss := by
  simp only [SplitsInto, List.flatMap_cons, List.append_assoc, List.singleton_append,
    List.forall_mem_cons]
  constructor
  · rintro ⟨rfl, hs, hss⟩
    exact ⟨_, rfl, hs, rfl, hss⟩
  · rintro ⟨_, rfl, hs, rfl, hss⟩
    exact ⟨rfl, hs, hss⟩

theorem not_splitsInto_of_not_mem (hz : z ∉ xs) (hne : xs ≠ []) : ¬ SplitsInto z xs ss := by
  intro h
  cases ss with
  | nil => exact hne h.1
  | cons s ss =>
    obtain ⟨rest, rfl, -, -⟩ := splitsInto_cons.mp h
    simp at hz

section

variable [DecidableEq α]

theorem takeWhile_terminated {rest : List α} (hs : z ∉ s) :
    (s ++ z :: rest).takeWhile (· ≠ z) = s := by
  have hall : ∀ x ∈ s, decide (x ≠ z) = true := by
    intro x hx
    simp only [ne_eq, decide_not, Bool.not_eq_true', decide_eq_false_iff_not]
    rintro rfl
    exact hs hx
  rw [List.takeWhile_append_of_pos hall]
  simp

/-- What stands before the first terminator is a string. -/
theorem eq_takeWhile_append (hz : z ∈ xs) :
    xs = xs.takeWhile (· ≠ z) ++ z :: xs.drop ((xs.takeWhile (· ≠ z)).length + 1) := by
  induction xs with
  | nil => cases hz
  | cons x xs ih =>
    by_cases hx : x = z
    · simp [hx]
    · have hz' : z ∈ xs := (List.mem_cons.mp hz).resolve_left (Ne.symm hx)
      rw [List.takeWhile_cons_of_pos (by simp [hx]), List.cons_append, List.length_cons,
        List.drop_succ_cons, ← ih hz']

theorem not_mem_takeWhile : z ∉ xs.takeWhile (· ≠ z) := by
  intro h
  simpa using List.mem_takeWhile_imp h

/-- The first string stops before the end exactly if there is a terminator. -/
theorem length_takeWhile_lt_iff : (xs.takeWhile (· ≠ z)).length < xs.length ↔ z ∈ xs := by
  constructor
  · intro hlt
    by_contra hz
    have hall : ∀ x ∈ xs, decide (x ≠ z) = true := by
      intro x hx
      rw [decide_eq_true_iff]
      rintro rfl
      exact hz hx
    rw [List.takeWhile_eq_self_iff.mpr hall] at hlt
    exact Nat.lt_irrefl _ hlt
  · intro hz
    have hlen := congrArg List.length (eq_takeWhile_append hz)
    rw [List.length_append, List.length_cons] at hlen
    omega

/-- The list splits as its first string says. -/
theorem splitsInto_iff_of_mem (hz : z ∈ xs) : SplitsInto z xs ss ↔
    ∃ ss', ss = xs.takeWhile (· ≠ z) :: ss' ∧
      SplitsInto z (xs.drop ((xs.takeWhile (· ≠ z)).length + 1)) ss' := by
  cases ss with
  | nil =>
    refine ⟨fun h => ?_, fun h => ?_⟩
    · rw [h.1] at hz
      cases hz
    · obtain ⟨_, h, -⟩ := h
      cases h
  | cons s ss =>
    rw [splitsInto_cons]
    constructor
    · rintro ⟨rest, rfl, hs, hss⟩
      refine ⟨ss, by rw [takeWhile_terminated hs], ?_⟩
      rw [takeWhile_terminated hs, ← List.drop_drop, List.drop_left]
      exact hss
    · rintro ⟨ss', hcons, hss⟩
      obtain ⟨rfl, rfl⟩ := List.cons.inj hcons
      exact ⟨_, eq_takeWhile_append hz, not_mem_takeWhile, hss⟩

/-- A list splits into strings if it is empty or ends with the terminator. -/
theorem exists_splitsInto_iff :
    (∃ ss, SplitsInto z xs ss) ↔ xs = [] ∨ xs.getLast? = some z := by
  induction hn : xs.length using Nat.strong_induction_on generalizing xs with
  | _ n ih =>
    by_cases hz : z ∈ xs
    · have hsplit := eq_takeWhile_append hz
      generalize hs : xs.takeWhile (· ≠ z) = s at hsplit
      generalize hrest : xs.drop (s.length + 1) = rest at hsplit
      have hlt : rest.length < n := by
        rw [← hn, hsplit, List.length_append, List.length_cons]
        omega
      have hiff : (∃ ss, SplitsInto z xs ss) ↔ ∃ ss, SplitsInto z rest ss := by
        simp only [splitsInto_iff_of_mem hz, hs, hrest]
        exact ⟨fun ⟨_, ss', _, h⟩ => ⟨ss', h⟩, fun ⟨ss', h⟩ => ⟨_, ss', rfl, h⟩⟩
      rw [hiff, ih _ hlt rfl, hsplit]
      cases rest with
      | nil => simp
      | cons x rest => simp
    · constructor
      · rintro ⟨ss, h⟩
        by_contra hno
        exact not_splitsInto_of_not_mem hz (fun hnil => hno (Or.inl hnil)) h
      · rintro (rfl | hlast)
        · exact ⟨[], splitsInto_nil.mpr rfl⟩
        · exact absurd (List.mem_of_getLast? hlast) hz

end

end SeCloak.Misc
