import SeCloak.Entry.Entry
import SeCloak.Misc.Steps

/-!
# Threads (`thread.c`)

A standard call runs on a thread from a fixed array. A core marks a free thread as active while it
holds the global lock, and makes it its current thread only afterwards, so in between the thread is
claimed but nobody's current thread. Every active thread has exactly one holder, a core it is
current on or a core that claimed it (`slots_exclusive`).
-/

namespace SeCloak
open Misc

/-! ## Data -/

/-- `enum thread_state` (`thread_private.h:37-41`). -/
inductive ThreadState where
  | free
  | suspended
  | active
  deriving DecidableEq

/-- The fields of `struct thread_ctx_regs` that `thread.c` writes; `r` holds `r0` to `r7`. -/
structure ThreadRegs where
  r : List Word := []
  svcSp : Word := 0
  pc : Word := 0
  cpsr : Word := 0
  deriving DecidableEq

/-- `struct thread_ctx` (`thread_private.h:66-75`). -/
structure ThreadCtx where
  regs : ThreadRegs := {}
  state : ThreadState := .free
  stackVaEnd : Word := 0
  hypClntId : Word := 0
  flags : Word := 0
  deriving DecidableEq

/-- `threads`, and the `curr_thread` of every core, where -1 is `none`. -/
structure Threads (κ : Type) where
  thread : Nat → ThreadCtx
  curr : κ → Option Nat

abbrev ThreadCode (κ α : Type) := Code (Threads κ) Empty Fault α

/-- `OPTEE_SMC_RETURN_ETHREAD_LIMIT` (`optee_smc.h`). -/
def opteeSmcReturnEthreadLimit : Word := 0x1

section Code

variable {κ : Type}

def Threads.setThread (s : Threads κ) (n : Nat) (t : ThreadCtx) : Threads κ :=
  { s with thread := Function.update s.thread n t }

section Updates

variable {s : Threads κ} {n m : Nat} {t : ThreadCtx}

@[simp] theorem setThread_curr : (s.setThread n t).curr = s.curr := rfl

@[simp] theorem setThread_self : (s.setThread n t).thread n = t := by
  simp [Threads.setThread]

@[simp] theorem setThread_of_ne (h : m ≠ n) : (s.setThread n t).thread m = s.thread m := by
  simp [Threads.setThread, h]

end Updates

variable [DecidableEq κ]

def Threads.setCurr (s : Threads κ) (k : κ) (ct : Option Nat) : Threads κ :=
  { s with curr := Function.update s.curr k ct }

section Updates

variable {s : Threads κ} {k j : κ} {ct : Option Nat}

@[simp] theorem setCurr_thread : (s.setCurr k ct).thread = s.thread := rfl

@[simp] theorem setCurr_self : (s.setCurr k ct).curr k = ct := by
  simp [Threads.setCurr]

@[simp] theorem setCurr_of_ne (h : j ≠ k) : (s.setCurr k ct).curr j = s.curr j := by
  simp [Threads.setCurr, h]

end Updates

/-! ## Functions -/

/-- `thread_init_boot_thread` (`thread.c:263-277`). -/
def threadInitBootThread (boot : κ) : ThreadCode κ Unit := do
  Code.modify fun s => { s with curr := fun _ => none }
  Code.modify fun s => s.setCurr boot (some 0)
  Code.modify fun s => s.setThread 0 { s.thread 0 with state := .active }

/-- `thread_clr_boot_thread` (`thread.c:279-287`). -/
def threadClrBootThread (num : Nat) (boot : κ) : ThreadCode κ Unit := do
  let s ← Code.get
  match s.curr boot with
  | none => Code.throw .assertion
  | some n =>
    Code.require (n < num) .assertion
    Code.require ((s.thread n).state = .active) .assertion
    Code.modify fun s => s.setThread n { s.thread n with state := .free }
    Code.modify fun s => s.setCurr boot none

/-- The loop that looks for a free thread (`thread.c:299-305`). -/
def findFree (num : Nat) (s : Threads κ) : Option Nat :=
  (List.range num).find? fun n => (s.thread n).state = .free

/-- `thread_alloc_and_run` up to `unlock_global` (`thread.c:289-312`): the thread that it claimed, or
the arguments that it returns with. -/
def threadClaim (num : Nat) (k : κ) (args : SmcArgs) : ThreadCode κ (Nat ⊕ SmcArgs) := do
  let s ← Code.get
  Code.require (s.curr k = none) .assertion
  match findFree num s with
  | some n =>
    Code.modify fun s => s.setThread n { s.thread n with state := .active }
    pure (.inl n)
  | none => pure (.inr { args with a0 := opteeSmcReturnEthreadLimit })

/-- `init_regs` (`thread.c:231-261`), with the address of `thread_std_smc_entry` and the CPSR. -/
def initRegs (entry cpsr : Word) (t : ThreadCtx) (args : SmcArgs) : ThreadCtx :=
  -- E is kept; SVC mode, A and I are set
  let cpsr := (cpsr &&& 0x200) ||| 0x13 ||| 0x100 ||| 0x80
  { t with regs :=
    { r := [args.a0, args.a1, args.a2, args.a3, args.a4, args.a5, args.a6, args.a7]
      svcSp := t.stackVaEnd
      pc := entry
      cpsr := if entry &&& 1 ≠ 0 then cpsr ||| 0x20 else cpsr } }

/-- `thread_alloc_and_run` after `curr_thread` is set (`thread.c:316-322`). -/
def threadRun (entry cpsr : Word) (n : Nat) (args : SmcArgs) : ThreadCode κ Unit := do
  Code.modify fun s => s.setThread n { s.thread n with flags := 0 }
  Code.modify fun s => s.setThread n (initRegs entry cpsr (s.thread n) args)
  Code.modify fun s => s.setThread n { s.thread n with hypClntId := args.a7 }

/-- `thread_state_free` (`thread.c:369-384`). -/
def threadStateFree (k : κ) : ThreadCode κ Unit := do
  let s ← Code.get
  match s.curr k with
  | none => Code.throw .assertion
  | some ct =>
    Code.require ((s.thread ct).state = .active) .assertion
    Code.modify fun s => s.setThread ct { s.thread ct with state := .free, flags := 0 }
    Code.modify fun s => s.setCurr k none

/-- `thread_state_suspend` (`thread.c:386-408`). -/
def threadStateSuspend (k : κ) (flags cpsr pc : Word) : ThreadCode κ Nat := do
  let s ← Code.get
  match s.curr k with
  | none => Code.throw .assertion
  | some ct =>
    Code.require ((s.thread ct).state = .active) .assertion
    Code.modify fun s => s.setThread ct { s.thread ct with
      flags := (s.thread ct).flags ||| flags
      regs := { (s.thread ct).regs with cpsr := cpsr, pc := pc }
      state := .suspended }
    Code.modify fun s => s.setCurr k none
    pure ct

/-! ## Cores -/

/-- Where a core is in `thread_alloc_and_run`. -/
inductive AllocPhase where
  | out
  /-- after `unlock_global` -/
  | claimed (n : Nat) (args : SmcArgs)
  /-- after `curr_thread` is set -/
  | current (n : Nat) (args : SmcArgs)

/-- The threads with the positions of the cores. -/
structure ThreadCores (κ : Type) where
  threads : Threads κ
  phase : κ → AllocPhase

/-- A step of a core, with what it was called with. -/
inductive ThreadAct (κ : Type) where
  | claim (k : κ) (args : SmcArgs)
  | setCurr (k : κ)
  | run (k : κ) (entry cpsr : Word)
  | free (k : κ)
  | suspend (k : κ) (flags cpsr pc : Word)

/-- Core `k` moves on to `p` and leaves the threads `s`. -/
def ThreadCores.move (c : ThreadCores κ) (k : κ) (p : AllocPhase) (s : Threads κ) : ThreadCores κ :=
  ⟨s, Function.update c.phase k p⟩

/-- One step of a core; what runs under `lock_global` is one step. A core allocates only without a
current thread, and frees or suspends only with one. -/
inductive ThreadStep (num : Nat) (c : ThreadCores κ) : ThreadAct κ → ThreadCores κ → Prop
  | claim {k : κ} {args : SmcArgs} {n : Nat} {s : Threads κ} (at_ : c.phase k = .out)
    (hcurr : c.threads.curr k = none)
    (run : Code.Runs (threadClaim num k args) c.threads [] (.inl n) s) :
    ThreadStep num c (.claim k args) (c.move k (.claimed n args) s)
  | refused {k : κ} {args args' : SmcArgs} {s : Threads κ} (at_ : c.phase k = .out)
    (hcurr : c.threads.curr k = none)
    (run : Code.Runs (threadClaim num k args) c.threads [] (.inr args') s) :
    ThreadStep num c (.claim k args) (c.move k .out s)
  | setCurr {k : κ} {n : Nat} {args : SmcArgs} (at_ : c.phase k = .claimed n args) :
    ThreadStep num c (.setCurr k) (c.move k (.current n args) (c.threads.setCurr k (some n)))
  | run {k : κ} {n : Nat} {args : SmcArgs} {entry cpsr : Word} {s : Threads κ}
    (at_ : c.phase k = .current n args)
    (run : Code.Runs (threadRun entry cpsr n args) c.threads [] () s) :
    ThreadStep num c (.run k entry cpsr) (c.move k .out s)
  | free {k : κ} {s : Threads κ} (at_ : c.phase k = .out) (hcurr : c.threads.curr k ≠ none)
    (run : Code.Runs (threadStateFree k) c.threads [] () s) :
    ThreadStep num c (.free k) (c.move k .out s)
  | suspend {k : κ} {flags cpsr pc : Word} {n : Nat} {s : Threads κ} (at_ : c.phase k = .out)
    (hcurr : c.threads.curr k ≠ none)
    (run : Code.Runs (threadStateSuspend k flags cpsr pc) c.threads [] n s) :
    ThreadStep num c (.suspend k flags cpsr pc) (c.move k .out s)

/-! ## Holders -/

/-- The thread is current on the core, or the core claimed it. -/
def ThreadCores.Holds (c : ThreadCores κ) (k : κ) (n : Nat) : Prop :=
  c.threads.curr k = some n ∨ ∃ args, c.phase k = .claimed n args

/-- Active threads are those that some core holds, and no two cores hold the same thread. -/
structure SlotInv (num : Nat) (c : ThreadCores κ) : Prop where
  claimed : ∀ k n args, c.phase k = .claimed n args → c.threads.curr k = none
  active : ∀ n, (c.threads.thread n).state = .active ↔ ∃ k, c.Holds k n
  unique : ∀ j k n, c.Holds j n → c.Holds k n → j = k
  bound : ∀ k n, c.Holds k n → n < num

section Move

variable {num n : Nat} {c : ThreadCores κ} {k : κ} {args : SmcArgs} {p : AllocPhase} {s : Threads κ}

@[simp] theorem move_phase_self : (c.move k p s).phase k = p := by
  simp [ThreadCores.move]

@[simp] theorem move_phase_of_ne {j : κ} (h : j ≠ k) : (c.move k p s).phase j = c.phase j := by
  simp [ThreadCores.move, h]

omit [DecidableEq κ] in
theorem not_claimed (h : c.phase k = p) (hp : ∀ m args, p ≠ .claimed m args) {m : Nat} :
    c.Holds k m ↔ c.threads.curr k = some m := by
  unfold ThreadCores.Holds
  rw [h]
  constructor
  · rintro (hcurr | ⟨args, hclaimed⟩)
    · exact hcurr
    · exact absurd hclaimed (hp m args)
  · exact Or.inl

/-- What core `k` holds after its step. -/
def heldAfter (s : Threads κ) (k : κ) (p : AllocPhase) (m : Nat) : Prop :=
  s.curr k = some m ∨ ∃ args, p = .claimed m args

theorem holds_move (hcurr : ∀ j, j ≠ k → s.curr j = c.threads.curr j) {j : κ} {m : Nat} :
    (c.move k p s).Holds j m ↔ (j = k ∧ heldAfter s k p m) ∨ (j ≠ k ∧ c.Holds j m) := by
  unfold ThreadCores.Holds ThreadCores.move heldAfter
  by_cases hj : j = k
  · subst hj
    simp
  · simp [hj, hcurr j hj]

/-- A step of core `k`: the threads that it takes were neither active nor out of range, and exactly
the threads that it gives up are no longer active. -/
theorem SlotInv.move (h : SlotInv num c) (hcurr : ∀ j, j ≠ k → s.curr j = c.threads.curr j)
    (hphase : ∀ m args, p = .claimed m args → s.curr k = none)
    (hnew : ∀ m, heldAfter s k p m →
      c.Holds k m ∨ (m < num ∧ (c.threads.thread m).state ≠ .active))
    (hstate : ∀ m, (s.thread m).state = .active ↔
      heldAfter s k p m ∨ ((c.threads.thread m).state = .active ∧ ¬ c.Holds k m)) :
    SlotInv num (c.move k p s) := by
  have hclash : ∀ j m, j ≠ k → c.Holds j m → ¬ heldAfter s k p m := by
    intro j m hj hold hafter
    rcases hnew m hafter with hk | ⟨-, hfree⟩
    · exact hj (h.unique j k m hold hk)
    · exact hfree ((h.active m).mpr ⟨j, hold⟩)
  refine ⟨fun j m args hj => ?_, fun m => ?_, fun i j m hi hj => ?_, fun j m hj => ?_⟩
  · by_cases hjk : j = k
    · subst hjk
      exact hphase m args (move_phase_self.symm.trans hj)
    · have hj' : c.phase j = .claimed m args := (move_phase_of_ne hjk).symm.trans hj
      exact (hcurr j hjk).trans (h.claimed j m args hj')
  · refine (hstate m).trans ⟨?_, ?_⟩
    · rintro (hafter | ⟨hactive, hnot⟩)
      · exact ⟨k, (holds_move hcurr).mpr (Or.inl ⟨rfl, hafter⟩)⟩
      · obtain ⟨j, hj⟩ := (h.active m).mp hactive
        have hjk : j ≠ k := by
          rintro rfl
          exact hnot hj
        exact ⟨j, (holds_move hcurr).mpr (Or.inr ⟨hjk, hj⟩)⟩
    · rintro ⟨j, hj⟩
      rcases (holds_move hcurr).mp hj with ⟨-, hafter⟩ | ⟨hjk, hj⟩
      · exact Or.inl hafter
      · exact Or.inr ⟨(h.active m).mpr ⟨j, hj⟩, fun hk => hjk (h.unique j k m hj hk)⟩
  · rcases (holds_move hcurr).mp hi with ⟨hik, hafter⟩ | ⟨hik, hold⟩
    · rcases (holds_move hcurr).mp hj with ⟨hjk, -⟩ | ⟨hjk, hold⟩
      · exact hik.trans hjk.symm
      · exact absurd hafter (hclash j m hjk hold)
    · rcases (holds_move hcurr).mp hj with ⟨-, hafter⟩ | ⟨-, hold'⟩
      · exact absurd hafter (hclash i m hik hold)
      · exact h.unique i j m hold hold'
  · rcases (holds_move hcurr).mp hj with ⟨-, hafter⟩ | ⟨-, hj⟩
    · rcases hnew m hafter with hk | ⟨hm, -⟩
      · exact h.bound k m hk
      · exact hm
    · exact h.bound j m hj

/-- A step that leaves core `k` with what it holds. -/
theorem SlotInv.keep (h : SlotInv num c) (hcurr : ∀ j, j ≠ k → s.curr j = c.threads.curr j)
    (hphase : ∀ m args, p = .claimed m args → s.curr k = none)
    (hold : ∀ m, heldAfter s k p m ↔ c.Holds k m)
    (hstate : ∀ m, (s.thread m).state = (c.threads.thread m).state) :
    SlotInv num (c.move k p s) := by
  refine h.move hcurr hphase (fun m hm => Or.inl ((hold m).mp hm)) fun m => ?_
  rw [hstate, hold]
  constructor
  · intro hactive
    by_cases hk : c.Holds k m
    · exact Or.inl hk
    · exact Or.inr ⟨hactive, hk⟩
  · rintro (hk | ⟨hactive, -⟩)
    · exact (h.active m).mpr ⟨k, hk⟩
    · exact hactive

end Move

section Step

variable {num n : Nat} {c c' : ThreadCores κ} {k : κ} {args : SmcArgs} {s : Threads κ} {a : ThreadAct κ}

omit [DecidableEq κ] in
theorem findFree_some (h : findFree num s = some n) : n < num ∧ (s.thread n).state = .free := by
  have hfree := @List.find?_some _ (fun n => decide ((s.thread n).state = .free)) _ _ h
  exact ⟨List.mem_range.mp (List.mem_of_find?_eq_some h), of_decide_eq_true hfree⟩

omit [DecidableEq κ] in
theorem threadClaim_runs {w : List Empty} {res : Nat ⊕ SmcArgs} {s' : Threads κ}
    (h : Code.Runs (threadClaim num k args) s w res s') :
    (∃ n, res = .inl n ∧ n < num ∧ (s.thread n).state = .free ∧
      s' = s.setThread n { s.thread n with state := .active }) ∨
    (∃ args', res = .inr args' ∧ s' = s) := by
  unfold threadClaim at h
  rw [Code.runs_get_bind, Code.runs_require_bind] at h
  obtain ⟨-, h⟩ := h
  cases hfind : findFree num s with
  | some n =>
    simp only [hfind, Code.runs_modify_bind, Code.runs_pure] at h
    obtain ⟨hn, hfree⟩ := findFree_some hfind
    exact Or.inl ⟨n, h.2.1, hn, hfree, h.2.2⟩
  | none =>
    simp only [hfind, Code.runs_pure] at h
    exact Or.inr ⟨_, h.2.1, h.2.2⟩

omit [DecidableEq κ] in
theorem threadRun_runs {entry cpsr : Word} {w : List Empty} {u : Unit} {s' : Threads κ}
    (h : Code.Runs (threadRun entry cpsr n args) s w u s') :
    s'.curr = s.curr ∧ ∀ m, (s'.thread m).state = (s.thread m).state := by
  unfold threadRun at h
  rw [Code.runs_modify_bind, Code.runs_modify_bind, Code.runs_modify] at h
  obtain ⟨-, rfl⟩ := h
  refine ⟨rfl, fun m => ?_⟩
  by_cases hm : m = n
  · subst hm
    simp [initRegs]
  · simp [hm]

theorem threadStateFree_runs {w : List Empty} {s' : Threads κ} :
    Code.Runs (threadStateFree k) s w () s' ↔ w = [] ∧ ∃ ct, s.curr k = some ct ∧
      (s.thread ct).state = .active ∧
      s' = (s.setThread ct { s.thread ct with state := .free, flags := 0 }).setCurr k none := by
  unfold threadStateFree
  rw [Code.runs_get_bind]
  cases hcurr : s.curr k with
  | none => simp
  | some ct => simp [and_left_comm]

theorem threadStateSuspend_runs {flags cpsr pc : Word} {w : List Empty} {ret : Nat}
    {s' : Threads κ} :
    Code.Runs (threadStateSuspend k flags cpsr pc) s w ret s' ↔ w = [] ∧ s.curr k = some ret ∧
      (s.thread ret).state = .active ∧
      s' = (s.setThread ret { s.thread ret with
        flags := (s.thread ret).flags ||| flags
        regs := { (s.thread ret).regs with cpsr := cpsr, pc := pc }
        state := .suspended }).setCurr k none := by
  unfold threadStateSuspend
  rw [Code.runs_get_bind]
  cases hcurr : s.curr k with
  | none => simp
  | some ct =>
    simp only [Code.runs_require_bind, Code.runs_modify_bind, Code.runs_pure, Option.some.injEq]
    constructor
    · rintro ⟨hactive, hw, rfl, hs⟩
      exact ⟨hw, rfl, hactive, hs⟩
    · rintro ⟨hw, rfl, hactive, hs⟩
      exact ⟨hactive, hw, rfl, hs⟩

/-- A core gives up its current thread. -/
theorem SlotInv.drop (h : SlotInv num c) (hout : c.phase k = .out)
    (hcurr : c.threads.curr k = some n) {t : ThreadCtx} (ht : t.state ≠ .active) :
    SlotInv num (c.move k .out ((c.threads.setThread n t).setCurr k none)) := by
  have hnone : ∀ m, ¬ heldAfter ((c.threads.setThread n t).setCurr k none) k .out m := by
    simp [heldAfter]
  have hholds : ∀ m, c.Holds k m ↔ n = m := by
    intro m
    rw [not_claimed hout (by intro m args habs; cases habs), hcurr, Option.some.injEq]
  refine h.move (fun j hj => setCurr_of_ne hj) ?_ ?_ fun m => ?_
  · intro m args habs
    cases habs
  · intro m hm
    exact absurd hm (hnone m)
  · rw [hholds]
    by_cases hm : m = n
    · subst hm
      simp [hnone, ht]
    · simp [hnone, hm, Ne.symm hm]

theorem slotInv_step (h : SlotInv num c) (hstep : ThreadStep num c a c') : SlotInv num c' := by
  cases hstep with
  | @claim k args n s hout hcurr run =>
    obtain ⟨m, hm, hn, hfree, rfl⟩ | ⟨args', habs, -⟩ := threadClaim_runs run
    swap
    · cases habs
    obtain rfl := Sum.inl.inj hm
    have hheld : ∀ i, heldAfter (c.threads.setThread n { c.threads.thread n with state := .active }) k
        (.claimed n args) i ↔ i = n := by
      intro i
      unfold heldAfter
      change (c.threads.curr k = some i ∨ _) ↔ _
      simp [hcurr, eq_comm]
    have hnot : ∀ i, ¬ c.Holds k i := by
      intro i hi
      rw [not_claimed hout (by intro m args habs; cases habs), hcurr] at hi
      cases hi
    refine h.move (fun _ _ => rfl) (fun _ _ _ => hcurr) (fun i hi => Or.inr ?_) fun i => ?_
    · obtain rfl := (hheld i).mp hi
      refine ⟨hn, ?_⟩
      rw [hfree]
      decide
    · rw [hheld]
      by_cases hi : i = n
      · subst hi
        simp
      · simp [hi, hnot]
  | @refused k args args' s hout hcurr run =>
    obtain ⟨m, hm, -⟩ | ⟨args', -, rfl⟩ := threadClaim_runs run
    · cases hm
    refine h.keep (fun _ _ => rfl) (fun m args habs => by cases habs) (fun m => ?_) fun _ => rfl
    rw [not_claimed hout (by intro m args habs; cases habs)]
    simp [heldAfter]
  | @setCurr k n args hat =>
    have hnone := h.claimed k n args hat
    refine h.keep (fun j hj => setCurr_of_ne hj) (fun m args habs => by cases habs)
      (fun m => ?_) fun _ => rfl
    unfold heldAfter ThreadCores.Holds
    rw [setCurr_self, hnone, hat]
    simp
  | @run k n args entry cpsr s hat run =>
    obtain ⟨hcurr, hstate⟩ := threadRun_runs run
    refine h.keep (fun j _ => by rw [hcurr]) (fun m args habs => by cases habs) (fun m => ?_) hstate
    rw [not_claimed hat (by intro m args habs; cases habs), ← hcurr]
    simp [heldAfter]
  | @free k s hout hne run =>
    obtain ⟨-, ct, hcurr, -, rfl⟩ := threadStateFree_runs.mp run
    exact h.drop hout hcurr (by simp)
  | @suspend k flags cpsr pc n s hout hne run =>
    obtain ⟨-, hcurr, -, rfl⟩ := threadStateSuspend_runs.mp run
    exact h.drop hout hcurr (by simp)

end Step

/-! ## Every interleaving -/

/-- The two functions that run on the boot core alone. -/
def threadBoot (num : Nat) (boot : κ) : ThreadCode κ Unit := do
  threadInitBootThread boot
  threadClrBootThread num boot

/-- The thread is current on exactly one core and claimed by none. -/
def ThreadCores.OnlyCurrent (c : ThreadCores κ) (n : Nat) : Prop :=
  (∃! k, c.threads.curr k = some n) ∧ ∀ k args, c.phase k ≠ .claimed n args

/-- The thread is claimed by exactly one core, which has not set it yet, and current on none. -/
def ThreadCores.OnlyClaimed (c : ThreadCores κ) (n : Nat) : Prop :=
  (∃! k, ∃ args, c.phase k = .claimed n args) ∧ ∀ k, c.threads.curr k ≠ some n

/-- No two cores share a thread, and no assertion fails whatever a core does next. -/
structure SlotsExclusive (num : Nat) (c : ThreadCores κ) : Prop where
  current : ∀ j k n, c.threads.curr j = some n → c.threads.curr k = some n → j = k
  active : ∀ k n, c.threads.curr k = some n → n < num ∧ (c.threads.thread n).state = .active
  held : ∀ n, (c.threads.thread n).state = .active → c.OnlyCurrent n ∨ c.OnlyClaimed n
  claim : ∀ k, c.phase k = .out → c.threads.curr k = none →
    ∀ args, (threadClaim num k args).succeeds c.threads = true
  release : ∀ k, c.phase k = .out → c.threads.curr k ≠ none →
    (threadStateFree k).succeeds c.threads = true ∧
      ∀ flags cpsr pc, (threadStateSuspend k flags cpsr pc).succeeds c.threads = true

section Runs

variable {num : Nat} {c : ThreadCores κ} {boot : κ} {s₀ s : Threads κ}

theorem SlotInv.exclusive (h : SlotInv num c) : SlotsExclusive num c where
  current := fun j k n hj hk => h.unique j k n (Or.inl hj) (Or.inl hk)
  active := fun k n hk => ⟨h.bound k n (Or.inl hk), (h.active n).mpr ⟨k, Or.inl hk⟩⟩
  held := by
    intro n hn
    obtain ⟨k, hk⟩ := (h.active n).mp hn
    rcases hk with hcurr | ⟨args, hclaimed⟩
    · refine Or.inl ⟨⟨k, hcurr, fun j hj => h.unique j k n (Or.inl hj) (Or.inl hcurr)⟩, ?_⟩
      intro j args hj
      obtain rfl := h.unique j k n (Or.inr ⟨args, hj⟩) (Or.inl hcurr)
      rw [h.claimed j n args hj] at hcurr
      cases hcurr
    · refine Or.inr ⟨⟨k, ⟨args, hclaimed⟩, ?_⟩, ?_⟩
      · intro j hj
        exact h.unique j k n (Or.inr hj) (Or.inr ⟨args, hclaimed⟩)
      · intro j hj
        obtain rfl := h.unique j k n (Or.inl hj) (Or.inr ⟨args, hclaimed⟩)
        rw [h.claimed j n args hclaimed] at hj
        cases hj
  claim := by
    intro k _ hcurr args
    have hrun : ∃ w res s, Code.Runs (threadClaim num k args) c.threads w res s := by
      cases hfind : findFree num c.threads with
      | some n =>
        refine ⟨[], .inl n, c.threads.setThread n { c.threads.thread n with state := .active }, ?_⟩
        simp [threadClaim, hcurr, hfind]
      | none =>
        refine ⟨[], .inr { args with a0 := opteeSmcReturnEthreadLimit }, c.threads, ?_⟩
        simp [threadClaim, hcurr, hfind]
    obtain ⟨w, res, s, hrun⟩ := hrun
    exact hrun.succeeds_after.1
  release := by
    intro k _ hne
    obtain ⟨n, hcurr⟩ := Option.ne_none_iff_exists'.mp hne
    have hactive := (h.active n).mpr ⟨k, Or.inl hcurr⟩
    refine ⟨?_, fun flags cpsr pc => ?_⟩
    · exact (threadStateFree_runs.mpr ⟨rfl, n, hcurr, hactive, rfl⟩).succeeds_after.1
    · exact (threadStateSuspend_runs.mpr ⟨rfl, hcurr, hactive, rfl⟩).succeeds_after.1

theorem slotInv_boot (hnum : 0 < num) (hbss : ∀ n, (s₀.thread n).state = .free) :
    ∃ s, Code.Runs (threadBoot num boot) s₀ [] () s ∧ SlotInv num ⟨s, fun _ => .out⟩ := by
  have hrun : ∃ s, Code.Runs (threadBoot num boot) s₀ [] () s ∧ (∀ k, s.curr k = none) ∧
      ∀ n, (s.thread n).state = .free := by
    let s₁ : Threads κ := ({ s₀ with curr := fun _ => none }.setCurr boot (some 0)).setThread 0
      { s₀.thread 0 with state := .active }
    have hinit : Code.Runs (threadInitBootThread boot) s₀ [] () s₁ := by
      unfold threadInitBootThread
      rw [Code.runs_modify_bind, Code.runs_modify_bind, Code.runs_modify]
      exact ⟨rfl, rfl⟩
    let s₂ := (s₁.setThread 0 { s₁.thread 0 with state := .free }).setCurr boot none
    have hclr : Code.Runs (threadClrBootThread num boot) s₁ [] () s₂ := by
      unfold threadClrBootThread
      have hcurr : s₁.curr boot = some 0 := setCurr_self
      rw [Code.runs_get_bind, hcurr]
      simp only [Code.runs_require_bind, Code.runs_modify_bind, Code.runs_modify]
      refine ⟨hnum, ?_, trivial, rfl⟩
      simp [s₁]
    refine ⟨s₂, Code.runs_bind.mpr ⟨[], (), s₁, [], hinit, hclr, rfl⟩, fun k => ?_, fun n => ?_⟩
    · by_cases hk : k = boot
      · subst hk
        simp [s₂]
      · simp [s₂, s₁, hk]
    · by_cases hn : n = 0
      · subst hn
        simp [s₂]
      · simp [s₂, s₁, hn, hbss]
  obtain ⟨s, hrun, hcurr, hfree⟩ := hrun
  have hnone : ∀ k n, ¬ ThreadCores.Holds ⟨s, fun _ => .out⟩ k n := by
    intro k n hk
    rw [not_claimed rfl (by intro m args habs; cases habs), hcurr] at hk
    cases hk
  refine ⟨s, hrun, ?_, fun n => ?_, ?_, ?_⟩
  · intro k n args habs
    cases habs
  · apply iff_of_false
    · rw [hfree]
      decide
    · rintro ⟨k, hk⟩
      exact hnone k n hk
  · exact fun j k n hj => absurd hj (hnone j n)
  · exact fun k n hk => absurd hk (hnone k n)

/-- After the boot core is done, in every interleaving of any number of cores no thread is shared
and no assertion on a thread fails. -/
theorem slots_exclusive (boot : κ) (hnum : 0 < num) (hbss : ∀ n, (s₀.thread n).state = .free) :
    (threadBoot num boot).succeeds s₀ = true ∧ ∀ as c,
      Steps (ThreadStep num) ⟨(threadBoot num boot).after s₀, fun _ => .out⟩ as c →
        SlotsExclusive num c := by
  obtain ⟨s, hrun, hinv⟩ := @slotInv_boot κ _ num boot s₀ hnum hbss
  obtain ⟨hok, hafter⟩ := hrun.succeeds_after
  refine ⟨hok, fun as c hsteps => ?_⟩
  rw [hafter] at hsteps
  exact (hsteps.invariant (fun _ _ _ _ hstep hc => slotInv_step hc hstep) hinv).exclusive

end Runs

end Code

/-- Four cores and two threads, with everything zero before the boot. -/
theorem slots_exclusive_four :
    (threadBoot 2 (0 : Fin 4)).succeeds ⟨fun _ => {}, fun _ => some 0⟩ = true ∧ ∀ as c,
      Steps (ThreadStep 2)
        ⟨(threadBoot 2 (0 : Fin 4)).after ⟨fun _ => {}, fun _ => some 0⟩, fun _ => .out⟩ as c →
          SlotsExclusive 2 c :=
  slots_exclusive 0 (by decide) fun _ => rfl

end SeCloak
