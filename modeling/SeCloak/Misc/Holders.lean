import Mathlib.Data.List.Perm.Basic
import Mathlib.Data.List.Count
import Mathlib.Data.List.Flatten
import Mathlib.Tactic.Common

/-!
# Reference counts, flags and their holders

A counter `n k` for each key is shared by several holders: a list `L` of holders, each of which
counts every occurrence of a key in its own list `items`, and a list `X` of single references
that are held at the moment by nobody in `L`. `Tallied` says that every counter in the domain
`D` is the number of references to it. A holder is opened to release its references one by one
(`Tallied.opened`) and closed after it has taken all of them (`Tallied.closed`).

A flag for each key says less: `Flagged` says that it is set as long as there is a reference to the
key. Whoever clears it has to hold the last one (`Flagged.drop_iff`).
-/

namespace SeCloak.Misc

variable {α κ : Type} [DecidableEq α] [DecidableEq κ]

/-- The counters of the keys in `D` are the references in the holders `L` and in `X`. -/
def Tallied (D : κ → Prop) (items : α → List κ) (n : κ → Int) (L : List α) (X : List κ) : Prop :=
  ∀ k, D k → n k = (L.flatMap items).count k + X.count k

variable {D : κ → Prop} {items : α → List κ} {n n' : κ → Int} {L : List α} {X Y : List κ}

omit [DecidableEq α] in
theorem Tallied.congr (h : Tallied D items n L X) (hX : X.Perm Y) : Tallied D items n L Y := by
  intro k hk
  rw [h k hk, hX.count_eq]

omit [DecidableEq α] in
theorem Tallied.of_eq (h : Tallied D items n L X) (hn : ∀ k, D k → n' k = n k) :
    Tallied D items n' L X := by
  intro k hk
  rw [hn k hk, h k hk]

omit [DecidableEq α] in
/-- One more reference to `k`. -/
theorem Tallied.take (h : Tallied D items n L X) {k : κ}
    (hn : ∀ j, D j → n' j = if j = k then n j + 1 else n j) : Tallied D items n' L (k :: X) := by
  intro j hj
  rw [hn j hj, h j hj, List.count_cons]
  by_cases hjk : j = k
  · subst hjk
    simp
    omega
  · have hkj : k ≠ j := fun h => hjk h.symm
    simp [hjk, hkj]

omit [DecidableEq α] in
/-- One reference less to `k`. -/
theorem Tallied.drop {k : κ} (h : Tallied D items n L (k :: X))
    (hn : ∀ j, D j → n' j = if j = k then n j - 1 else n j) : Tallied D items n' L X := by
  intro j hj
  have := h j hj
  rw [List.count_cons] at this
  rw [hn j hj, this]
  by_cases hjk : j = k
  · subst hjk
    simp
    omega
  · have hkj : k ≠ j := fun h => hjk h.symm
    simp [hjk, hkj]

/-- The references of a holder become single ones. -/
theorem Tallied.opened (h : Tallied D items n L X) {d : α} (hd : d ∈ L) :
    Tallied D items n (L.erase d) (items d ++ X) := by
  intro k hk
  have hperm := (List.perm_cons_erase hd).flatMap_right items
  rw [h k hk, hperm.count_eq, List.flatMap_cons, List.count_append, List.count_append]
  omega

omit [DecidableEq α] in
/-- The single references of a new holder become its own. -/
theorem Tallied.closed {d : α} (h : Tallied D items n L (items d ++ X)) :
    Tallied D items n (d :: L) X := by
  intro k hk
  rw [h k hk, List.flatMap_cons, List.count_append, List.count_append]
  omega

omit [DecidableEq α] in
theorem Tallied.pos (h : Tallied D items n L X) {k : κ} (hk : D k)
    (hmem : k ∈ L.flatMap items ∨ k ∈ X) : 0 < n k := by
  rw [h k hk]
  rcases hmem with hL | hX
  · have := List.count_pos_iff.mpr hL
    omega
  · have := List.count_pos_iff.mpr hX
    omega

omit [DecidableEq α] in
theorem Tallied.pos_of_holder (h : Tallied D items n L X) {d : α} {k : κ} (hk : D k)
    (hd : d ∈ L) (hkd : k ∈ items d) : 0 < n k :=
  h.pos hk (Or.inl (List.mem_flatMap.mpr ⟨d, hd, hkd⟩))

omit [DecidableEq α] [DecidableEq κ] in
/-- The references of some of the holders are among those of all. -/
theorem subperm_flatMap {M : List α} (h : M.Subperm L) (items : α → List κ) :
    (M.flatMap items).Subperm (L.flatMap items) := by
  obtain ⟨M', hperm, hsub⟩ := h
  exact ⟨M'.flatMap items, hperm.flatMap_right items, hsub.flatMap items⟩

/-! ## Flags -/

section Flags

/-- The flags of the keys in `D` are set for the keys that some reference in `X` has. -/
def Flagged (D : κ → Prop) (key : α → κ) (flag : κ → Bool) (X : List α) : Prop :=
  ∀ k, D k → (flag k = true ↔ ∃ a ∈ X, key a = k)

variable {key : α → κ} {flag flag' : κ → Bool} {R : List α} {a : α}

omit [DecidableEq α] [DecidableEq κ] in
theorem Flagged.of_eq (h : Flagged D key flag R) (hf : ∀ k, D k → flag' k = flag k) :
    Flagged D key flag' R := by
  intro k hk
  rw [hf k hk]
  exact h k hk

omit [DecidableEq α] in
/-- One more reference sets its flag. -/
theorem Flagged.take (h : Flagged D key flag R)
    (hf : ∀ k, D k → flag' k = if k = key a then true else flag k) :
    Flagged D key flag' (a :: R) := by
  intro k hk
  rw [hf k hk]
  simp only [List.exists_mem_cons_iff]
  by_cases hka : k = key a
  · rw [if_pos hka]
    exact ⟨fun _ => Or.inl hka.symm, fun _ => rfl⟩
  · rw [if_neg hka, h k hk, or_iff_right (fun heq => hka heq.symm)]

/-- A reference that goes clears its flag, which is right only if it is the last one. -/
theorem Flagged.drop_iff (h : Flagged D key flag R) (hD : D (key a))
    (hf : ∀ k, D k → flag' k = if k = key a then false else flag k) :
    Flagged D key flag' (R.erase a) ↔ ∀ b ∈ R.erase a, key b ≠ key a := by
  constructor
  · intro h' b hb hkey
    have hset := (h' (key a) hD).mpr ⟨b, hb, hkey⟩
    rw [hf (key a) hD, if_pos rfl] at hset
    cases hset
  · intro hlast k hk
    rw [hf k hk]
    by_cases hka : k = key a
    · rw [if_pos hka, hka]
      constructor
      · intro hfalse
        cases hfalse
      · rintro ⟨b, hb, hkey⟩
        exact absurd hkey (hlast b hb)
    · rw [if_neg hka, h k hk]
      constructor
      · rintro ⟨b, hb, rfl⟩
        have hba : b ≠ a := by
          rintro rfl
          exact hka rfl
        exact ⟨b, (List.mem_erase_of_ne hba).mpr hb, rfl⟩
      · rintro ⟨b, hb, hkey⟩
        exact ⟨b, List.mem_of_mem_erase hb, hkey⟩

end Flags

end SeCloak.Misc
