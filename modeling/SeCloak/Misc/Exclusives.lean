import Mathlib.Data.BitVec
import Mathlib.Logic.Function.Basic
import Mathlib.Tactic.Common

/-!
# Exclusive accesses of several cores

ARM cores that share a memory. Each has an exclusive monitor, which holds the address that it loaded
last with `ldrex`, and an event register, which `wfe` waits for. The memory is sequentially consistent,
so a barrier does nothing. As long as the monitor of a core holds an address, the word there is the one
that was loaded (`Cluster.Kept`), and a `strex` that succeeds stores in its place.
-/

namespace SeCloak.Misc

/-- What the cores share, and the monitor and the event register of each. -/
structure Cluster (κ : Type) where
  mem : BitVec 32 → BitVec 32
  tag : κ → Option (BitVec 32)
  event : κ → Bool

/-- The registers of a core, its flag Z, and the index of the instruction that is next. -/
structure CoreRegs where
  r : Nat → BitVec 32
  z : Bool
  pc : Nat

namespace CoreRegs

def next (t : CoreRegs) : CoreRegs := { t with pc := t.pc + 1 }

def set (t : CoreRegs) (rd : Nat) (v : BitVec 32) : CoreRegs :=
  { t with r := Function.update t.r rd v, pc := t.pc + 1 }

variable {t : CoreRegs} {rd rn : Nat} {v : BitVec 32}

@[simp] theorem next_r : t.next.r = t.r := rfl
@[simp] theorem next_z : t.next.z = t.z := rfl
@[simp] theorem next_pc : t.next.pc = t.pc + 1 := rfl
@[simp] theorem set_z : (t.set rd v).z = t.z := rfl
@[simp] theorem set_pc : (t.set rd v).pc = t.pc + 1 := rfl

@[simp] theorem set_self : (t.set rd v).r rd = v := by
  simp [set]

@[simp] theorem set_of_ne (h : rn ≠ rd) : (t.set rd v).r rn = t.r rn := by
  simp [set, h]

end CoreRegs

/-- The condition of an instruction. -/
inductive Cond where
  | al
  | eq
  | ne

def Cond.passes : Cond → Bool → Bool
  | al, _ => true
  | eq, z => z
  | ne, z => !z

/-- Instructions; a branch has the index that it goes to. -/
inductive Instr where
  | mov (rd : Nat) (v : BitVec 32)
  | movReg (rd rm : Nat)
  | cmp (c : Cond) (rn : Nat) (v : BitVec 32)
  | ldrex (rt rn : Nat)
  | strex (c : Cond) (rd rt rn : Nat)
  | str (rt rn : Nat)
  | clrex
  | wfe (c : Cond)
  | sev
  | barrier
  | b (c : Cond) (target : Nat)
  | ret

section Cluster

variable {κ : Type} [DecidableEq κ]

namespace Cluster

/-- Core `k` stores a word, and the other cores lose their tags on it. -/
def store (s : Cluster κ) (k : κ) (a v : BitVec 32) : Cluster κ :=
  { s with
    mem := Function.update s.mem a v
    tag := fun j => if j ≠ k ∧ s.tag j = some a then none else s.tag j }

def setTag (s : Cluster κ) (k : κ) (t : Option (BitVec 32)) : Cluster κ :=
  { s with tag := Function.update s.tag k t }

def setEvent (s : Cluster κ) (k : κ) (e : Bool) : Cluster κ :=
  { s with event := Function.update s.event k e }

def sendEvent (s : Cluster κ) : Cluster κ := { s with event := fun _ => true }

end Cluster

/-- What core `k` does; `none` if it waits, or if it leaves the routine. -/
def Instr.exec (k : κ) (s : Cluster κ) (t : CoreRegs) : Instr → Option (Cluster κ × CoreRegs)
  | mov rd v => some (s, t.set rd v)
  | movReg rd rm => some (s, t.set rd (t.r rm))
  | cmp c rn v => some (s, if c.passes t.z then { t.next with z := t.r rn == v } else t.next)
  | ldrex rt rn => some (s.setTag k (some (t.r rn)), t.set rt (s.mem (t.r rn)))
  | strex c rd rt rn =>
    if c.passes t.z then
      if s.tag k = some (t.r rn) then
        some ((s.store k (t.r rn) (t.r rt)).setTag k none, t.set rd 0)
      else some (s.setTag k none, t.set rd 1)
    else some (s, t.next)
  | str rt rn => some (s.store k (t.r rn) (t.r rt), t.next)
  | clrex => some (s.setTag k none, t.next)
  | wfe c =>
    if c.passes t.z then if s.event k then some (s.setEvent k false, t.next) else none
    else some (s, t.next)
  | sev => some (s.sendEvent, t.next)
  | barrier => some (s, t.next)
  | b c target => some (s, if c.passes t.z then { t with pc := target } else t.next)
  | ret => none

/-- `n` instructions of core `k` in a row. -/
def runFor (k : κ) (code : List Instr) : Nat → Cluster κ × CoreRegs → Option (Cluster κ × CoreRegs)
  | 0, x => some x
  | n + 1, x => do
    let i ← code[x.2.pc]?
    let y ← i.exec k x.1 x.2
    runFor k code n y

/-- While core `k` has a tag on the word at `a`, the word is `v`. -/
def Cluster.Kept (s : Cluster κ) (k : κ) (a v : BitVec 32) : Prop := s.tag k = some a → s.mem a = v

/-- A step of core `k` as the other cores see it: what they have tagged is what it was, and their events
stay. -/
structure Cluster.Leads (k : κ) (s s' : Cluster κ) : Prop where
  kept : ∀ j, j ≠ k → ∀ a v, s.Kept j a v → s'.Kept j a v
  event : ∀ j, j ≠ k → s.event j = true → s'.event j = true

section Steps

variable {s s' : Cluster κ} {j k : κ} {a v : BitVec 32} {t t' : CoreRegs} {i : Instr}

omit [DecidableEq κ] in
theorem Cluster.Leads.refl (k : κ) (s : Cluster κ) : s.Leads k s :=
  ⟨fun _ _ _ _ h => h, fun _ _ h => h⟩

omit [DecidableEq κ] in
theorem Cluster.Leads.trans {s₁ : Cluster κ} (h : s.Leads k s₁) (h' : s₁.Leads k s') : s.Leads k s' :=
  ⟨fun j hj a v hs => h'.kept j hj a v (h.kept j hj a v hs), fun j hj hs => h'.event j hj (h.event j hj hs)⟩

theorem leads_store : s.Leads k (s.store k a v) := by
  constructor
  · intro j hj b w hs htag
    simp only [Cluster.store] at htag ⊢
    split at htag
    · cases htag
    next hne =>
      have hab : b ≠ a := by
        rintro rfl
        exact hne ⟨hj, htag⟩
      rw [Function.update_of_ne hab]
      exact hs htag
  · intro j hj hs
    exact hs

theorem leads_setTag {tag : Option (BitVec 32)} : s.Leads k (s.setTag k tag) := by
  constructor
  · intro j hj b w hs htag
    simp only [Cluster.setTag, Function.update_of_ne hj] at htag ⊢
    exact hs htag
  · intro j hj hs
    exact hs

theorem leads_setEvent {e : Bool} : s.Leads k (s.setEvent k e) := by
  constructor
  · intro j hj b w hs
    exact hs
  · intro j hj hs
    simp only [Cluster.setEvent, Function.update_of_ne hj]
    exact hs

omit [DecidableEq κ] in
theorem leads_sendEvent : s.Leads k s.sendEvent :=
  ⟨fun _ _ _ _ h => h, fun _ _ _ => rfl⟩

/-- No instruction of a core takes what another one has tagged, or its event. -/
theorem exec_leads (h : i.exec k s t = some (s', t')) : s.Leads k s' := by
  cases i with
  | ldrex rt rn =>
    obtain ⟨rfl, -⟩ := Prod.mk.inj (Option.some.inj h)
    exact leads_setTag
  | strex c rd rt rn =>
    simp only [Instr.exec] at h
    split at h
    · split at h
      · obtain ⟨rfl, -⟩ := Prod.mk.inj (Option.some.inj h)
        exact leads_store.trans leads_setTag
      · obtain ⟨rfl, -⟩ := Prod.mk.inj (Option.some.inj h)
        exact leads_setTag
    · obtain ⟨rfl, -⟩ := Prod.mk.inj (Option.some.inj h)
      exact .refl k s
  | str rt rn =>
    obtain ⟨rfl, -⟩ := Prod.mk.inj (Option.some.inj h)
    exact leads_store
  | clrex =>
    obtain ⟨rfl, -⟩ := Prod.mk.inj (Option.some.inj h)
    exact leads_setTag
  | wfe c =>
    simp only [Instr.exec] at h
    split at h
    · split at h
      · obtain ⟨rfl, -⟩ := Prod.mk.inj (Option.some.inj h)
        exact leads_setEvent
      · cases h
    · obtain ⟨rfl, -⟩ := Prod.mk.inj (Option.some.inj h)
      exact .refl k s
  | sev =>
    obtain ⟨rfl, -⟩ := Prod.mk.inj (Option.some.inj h)
    exact leads_sendEvent
  | ret => cases h
  | mov rd v | movReg rd rm | cmp c rn v | barrier | b c target =>
    obtain ⟨rfl, -⟩ := Prod.mk.inj (Option.some.inj h)
    exact .refl k s

/-- A core stops only where it leaves the routine, or where it waits for an event that it does not have. -/
theorem exec_eq_none : i.exec k s t = none ↔
    i = .ret ∨ ∃ c, i = .wfe c ∧ c.passes t.z = true ∧ s.event k = false := by
  cases i with
  | wfe c => cases hpass : c.passes t.z <;> cases hevent : s.event k <;> simp [Instr.exec, hpass, hevent]
  | strex c rd rt rn =>
    simp only [Instr.exec]
    split
    · split <;> simp
    · simp
  | ret => simp [Instr.exec]
  | mov rd v | movReg rd rm | cmp c rn v | ldrex rt rn | str rt rn | clrex | sev | barrier | b c target =>
    simp [Instr.exec]

/-- A word that was just loaded with `ldrex`. -/
theorem kept_setTag : (s.setTag k (some a)).Kept k a (s.mem a) := fun _ => rfl

/-- Without a tag nothing is promised. -/
theorem kept_none : (s.setTag k none).Kept k a v := by
  intro htag
  simp [Cluster.setTag] at htag

end Steps

end Cluster

end SeCloak.Misc
