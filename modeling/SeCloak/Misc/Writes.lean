import Mathlib.Data.List.Basic
import Mathlib.Logic.Function.Basic

/-!
# Writes to a memory

A sequence of writes, first to last. When no address is written with two values, the order does
not matter: each address that is written holds its value, and every other one is as before.
-/

namespace SeCloak.Misc

variable {α β : Type} [DecidableEq α]

/-- The memory after the writes. -/
def writeAll (f : α → β) (ps : List (α × β)) : α → β :=
  ps.foldl (fun f p => Function.update f p.1 p.2) f

theorem writeAll_cons (f : α → β) (p : α × β) (ps : List (α × β)) :
    writeAll f (p :: ps) = writeAll (Function.update f p.1 p.2) ps := rfl

theorem writeAll_other {ps : List (α × β)} {a : α} (h : ∀ p ∈ ps, a ≠ p.1) (f : α → β) :
    writeAll f ps a = f a := by
  induction ps generalizing f with
  | nil => rfl
  | cons p ps ih =>
    obtain ⟨hp, hps⟩ := List.forall_mem_cons.mp h
    rw [writeAll_cons, ih hps, Function.update_of_ne hp]

/-- No address is written with two values. -/
def SingleValued (ps : List (α × β)) : Prop := ∀ p ∈ ps, ∀ q ∈ ps, p.1 = q.1 → p.2 = q.2

theorem writeAll_mem {ps : List (α × β)} (h : SingleValued ps) {p : α × β} (hp : p ∈ ps)
    (f : α → β) : writeAll f ps p.1 = p.2 := by
  induction ps generalizing f p with
  | nil => cases hp
  | cons q ps ih =>
    rw [writeAll_cons]
    have htail : SingleValued ps := fun x hx y hy =>
      h x (List.mem_cons_of_mem _ hx) y (List.mem_cons_of_mem _ hy)
    by_cases hlater : ∃ r ∈ ps, r.1 = p.1
    · -- a later write to the address has the same value
      obtain ⟨r, hr, hrp⟩ := hlater
      have hval : r.2 = p.2 := h r (List.mem_cons_of_mem _ hr) p hp hrp
      rw [← hrp, ← hval]
      exact ih htail hr _
    · have hq : p = q := by
        rcases List.mem_cons.mp hp with hpq | hps
        · exact hpq
        · exact absurd ⟨p, hps, rfl⟩ hlater
      subst hq
      rw [writeAll_other (fun r hr hne => hlater ⟨r, hr, hne.symm⟩), Function.update_self]

end SeCloak.Misc
