import Mathlib.Data.List.Basic
import Mathlib.Tactic.Common

/-!
# Sweeps over overlapping chains

Every element `d` has a chain of elements that change together with it. A sweep visits a list
of elements and sets the flags of their chains to `b`, but skips an element whose own flag is
`b` already. Chains overlap, so a skipped element may have been reached from another one; the
sweep is still complete because a chain contains the chain of each of its members
(`ChainClosed`), and its result does not depend on the order of the visits (`sweep_apply`).
-/

namespace SeCloak.Misc

variable {α : Type} [DecidableEq α]

/-- Set the flags of all of `xs` to `b`. -/
def paint (b : Bool) (xs : List α) (flag : α → Bool) : α → Bool :=
  fun x => if x ∈ xs then b else flag x

/-- Visit `ds` in order; an element whose flag is not `b` has its whole chain painted. -/
def sweep (chain : α → List α) (b : Bool) : List α → (α → Bool) → α → Bool
  | [], flag => flag
  | d :: ds, flag =>
    if flag d = b then sweep chain b ds flag
    else sweep chain b ds (paint b (chain d) flag)

/-- A chain starts with its element and contains the chain of each of its members. -/
structure ChainClosed (chain : α → List α) : Prop where
  self : ∀ d, d ∈ chain d
  trans : ∀ {d x}, x ∈ chain d → ∀ y ∈ chain x, y ∈ chain d

theorem sweep_append (chain : α → List α) (b : Bool) (ds es : List α) (flag : α → Bool) :
    sweep chain b (ds ++ es) flag = sweep chain b es (sweep chain b ds flag) := by
  induction ds generalizing flag with
  | nil => rfl
  | cons d ds ih =>
    simp only [List.cons_append, sweep]
    split
    · exact ih _
    · exact ih _

/-- The result of a sweep: exactly the chains of the visited elements that did not have the
flag `b` at the start are painted. -/
theorem sweep_apply {chain : α → List α} (hc : ChainClosed chain) (b : Bool) (ds : List α)
    (flag : α → Bool) (x : α) :
    sweep chain b ds flag x =
      if ∃ d ∈ ds, flag d ≠ b ∧ x ∈ chain d then b else flag x := by
  induction ds generalizing flag with
  | nil => simp [sweep]
  | cons d ds ih =>
    by_cases hd : flag d = b
    · simp [sweep, hd, ih]
    · simp only [sweep, if_neg hd, ih]
      -- an element painted with the chain of `d` needs no visit of its own
      have hpaint : ∀ e, paint b (chain d) flag e ≠ b ↔ e ∉ chain d ∧ flag e ≠ b := by
        intro e
        by_cases he : e ∈ chain d <;> simp [paint, he]
      by_cases hx : x ∈ chain d
      · have hex : ∃ e ∈ d :: ds, flag e ≠ b ∧ x ∈ chain e := ⟨d, by simp, hd, hx⟩
        rw [if_pos hex]
        simp [paint, hx]
      · have hiff : (∃ e ∈ ds, paint b (chain d) flag e ≠ b ∧ x ∈ chain e) ↔
            ∃ e ∈ d :: ds, flag e ≠ b ∧ x ∈ chain e := by
          constructor
          · rintro ⟨e, he, hp, hxe⟩
            exact ⟨e, by simp [he], ((hpaint e).mp hp).2, hxe⟩
          · rintro ⟨e, he, hp, hxe⟩
            rcases List.mem_cons.mp he with rfl | he
            · exact absurd hxe hx
            · exact ⟨e, he, (hpaint e).mpr ⟨fun hed => hx (hc.trans hed x hxe), hp⟩, hxe⟩
        rw [if_congr hiff rfl rfl]
        simp [paint, hx]

/-- Every flag that is not `b` is on the chain of one of `ds` whose flag is not `b` either: the
flags came from sweeps over `ds`. -/
def Explained (chain : α → List α) (b : Bool) (ds : List α) (flag : α → Bool) : Prop :=
  ∀ x, flag x ≠ b → ∃ d ∈ ds, flag d ≠ b ∧ x ∈ chain d

/-- A sweep over all that explains the flags undoes them. -/
theorem sweep_explained {chain : α → List α} (hc : ChainClosed chain) {b : Bool} {ds : List α}
    {flag : α → Bool} (h : Explained chain b ds flag) (x : α) : sweep chain b ds flag x = b := by
  rw [sweep_apply hc]
  split
  · rfl
  · rename_i hnone
    by_contra hx
    exact hnone (h x hx)

/-- A sweep from uniform flags paints the chains of what it visits. -/
theorem sweep_uniform {chain : α → List α} (hc : ChainClosed chain) {b : Bool} {ds : List α}
    {flag : α → Bool} (h : ∀ x, flag x = !b) (x : α) :
    sweep chain b ds flag x = b ↔ ∃ d ∈ ds, x ∈ chain d := by
  have hne : ∀ x, flag x ≠ b := by
    intro x
    rw [h]
    cases b <;> decide
  rw [sweep_apply hc]
  constructor
  · intro hx
    by_contra hnone
    rw [if_neg] at hx
    · exact hne x hx
    · rintro ⟨d, hd, -, hmem⟩
      exact hnone ⟨d, hd, hmem⟩
  · rintro ⟨d, hd, hmem⟩
    rw [if_pos ⟨d, hd, hne d, hmem⟩]

/-- Such a sweep is explained by any list that contains what it visits. -/
theorem explained_of_uniform {chain : α → List α} (hc : ChainClosed chain) {b : Bool}
    {ds es : List α} {flag : α → Bool} (h : ∀ x, flag x = !b) (hsub : ∀ d ∈ ds, d ∈ es) :
    Explained chain (!b) es (sweep chain b ds flag) := by
  intro x hx
  have hxb : sweep chain b ds flag x = b := by
    revert hx
    cases sweep chain b ds flag x <;> cases b <;> decide
  obtain ⟨d, hd, hmem⟩ := (sweep_uniform hc h x).mp hxb
  refine ⟨d, hsub d hd, ?_, hmem⟩
  rw [(sweep_uniform hc h d).mpr ⟨d, hd, hc.self d⟩]
  cases b <;> decide

end SeCloak.Misc
