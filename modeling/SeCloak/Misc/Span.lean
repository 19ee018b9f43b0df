import Mathlib.Data.List.Basic
import Mathlib.Tactic.Common

/-!
# Half-open ranges of naturals

Address ranges without wraparound. `Span.Apart` is disjointness as sets, and `apart_iff` the
comparison of the bounds that it amounts to for ranges that are not empty.
-/

namespace SeCloak.Misc

structure Span where
  lo : Nat
  hi : Nat
  deriving DecidableEq

namespace Span

/-- The address is in the range. -/
def Has (s : Span) (x : Nat) : Prop := s.lo ≤ x ∧ x < s.hi

instance (s : Span) : DecidablePred s.Has := fun _ => inferInstanceAs (Decidable (_ ∧ _))

/-- No address is in both ranges. -/
def Apart (s t : Span) : Prop := ∀ x, s.Has x → ¬ t.Has x

theorem Apart.symm {s t : Span} (h : s.Apart t) : t.Apart s := fun x ht hs => h x hs ht

theorem apart_of_le {s t : Span} (h : s.hi ≤ t.lo) : s.Apart t := by
  intro x hs ht
  have hs2 := hs.2
  have ht1 := ht.1
  omega

/-- A part of a range is apart from what the range is apart from. -/
theorem Apart.mono {s s' t : Span} (h : s.Apart t) (hlo : s.lo ≤ s'.lo) (hhi : s'.hi ≤ s.hi) :
    s'.Apart t :=
  fun x hs' => h x ⟨Nat.le_trans hlo hs'.1, Nat.lt_of_lt_of_le hs'.2 hhi⟩

theorem has_lo {s : Span} (h : s.lo < s.hi) : s.Has s.lo := ⟨Nat.le_refl _, h⟩

/-- Of two ranges that are apart and not empty, the one that starts first ends before the other. -/
theorem Apart.le {s t : Span} (h : s.Apart t) (ht : t.lo < t.hi) (hlo : s.lo ≤ t.lo) :
    s.hi ≤ t.lo := by
  by_contra hlt
  exact h t.lo ⟨hlo, by omega⟩ (has_lo ht)

theorem apart_iff {s t : Span} (hs : s.lo < s.hi) (ht : t.lo < t.hi) :
    s.Apart t ↔ s.hi ≤ t.lo ∨ t.hi ≤ s.lo := by
  constructor
  · intro h
    rcases Nat.le_total s.lo t.lo with hlo | hlo
    · exact Or.inl (h.le ht hlo)
    · exact Or.inr (h.symm.le hs hlo)
  · rintro (h | h)
    · exact apart_of_le h
    · exact (apart_of_le h).symm

/-- Two ranges that meet cover everything between their bounds. -/
theorem has_or_has {s t : Span} {x : Nat} (h : ¬ s.Apart t) (hlo : min s.lo t.lo ≤ x)
    (hhi : x < max s.hi t.hi) : s.Has x ∨ t.Has x := by
  have hmeet : ∃ y, s.Has y ∧ t.Has y := by
    by_contra hno
    exact h fun y hs ht => hno ⟨y, hs, ht⟩
  obtain ⟨y, ⟨hs₁, hs₂⟩, ht₁, ht₂⟩ := hmeet
  unfold Has
  omega

end Span

end SeCloak.Misc
