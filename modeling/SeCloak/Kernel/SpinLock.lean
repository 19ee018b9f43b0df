import SeCloak.State
import SeCloak.Misc.Exclusives
import SeCloak.Misc.Steps

/-!
# Spinlocks (`spin_lock_a32.S`)

The three routines of a spinlock, executed by any number of cores one instruction at a time. Every call
takes effect at one instruction between its start and its return (`spin_linearizable`), and so a lock
excludes as long as only a core that has it unlocks it (`spin_exclusive`). A core that waits for an event
is sent one (`spin_woken`), and a core that finds the lock free gets it (`spin_acquires`).
-/

namespace SeCloak
open Misc

/-! ## Routines -/

/-- `SPINLOCK_LOCK` and `SPINLOCK_UNLOCK` (`spinlock.h:32-33`). -/
def spinlockLock : Word := 1
def spinlockUnlock : Word := 0

namespace Spin

/-- `__cpu_spin_lock` (`spin_lock_a32.S:38-49`). -/
def cpuSpinLock : List Instr := [
  .mov 2 spinlockLock,
  .ldrex 1 0, -- 1:
  .cmp .al 1 spinlockUnlock,
  .wfe .ne,
  .strex .eq 1 2 0,
  .cmp .eq 1 0,
  .b .ne 1,
  .barrier,
  .ret]

/-- `__cpu_spin_trylock` (`spin_lock_a32.S:52-68`). -/
def cpuSpinTrylock : List Instr := [
  .mov 2 spinlockLock,
  .movReg 1 0,
  .ldrex 0 1, -- 1:
  .cmp .al 0 0,
  .b .ne 10,
  .strex .al 0 2 1,
  .cmp .al 0 0,
  .b .ne 2,
  .barrier,
  .ret,
  .clrex, -- 1:
  .barrier,
  .ret]

/-- `__cpu_spin_unlock` (`spin_lock_a32.S:71-78`). -/
def cpuSpinUnlock : List Instr := [
  .barrier,
  .mov 1 spinlockUnlock,
  .str 1 0,
  .barrier,
  .sev,
  .ret]

end Spin

inductive SpinCall where
  | lock
  | trylock
  | unlock
  deriving DecidableEq

def SpinCall.routine : SpinCall → List Instr
  | lock => Spin.cpuSpinLock
  | trylock => Spin.cpuSpinTrylock
  | unlock => Spin.cpuSpinUnlock

/-- The result of a call: `__cpu_spin_trylock` returns 0 on success. -/
def SpinCall.ok : SpinCall → Word → Bool
  | trylock, rc => rc == 0
  | _, _ => true

/-! ## Cores -/

/-- Where a core is. -/
inductive SpinCore where
  | out
  | code (f : SpinCall) (t : CoreRegs)

structure SpinCores (κ : Type) where
  cluster : Cluster κ
  core : κ → SpinCore

/-- What a client of the lock can tell: a call, and its return. -/
inductive SpinEvent (κ : Type) where
  | call (k : κ) (f : SpinCall)
  | ret (k : κ) (f : SpinCall) (ok : Bool)

section Cores

variable {κ : Type} [DecidableEq κ]

def SpinCores.move (m : SpinCores κ) (k : κ) (s : Cluster κ) (p : SpinCore) : SpinCores κ :=
  ⟨s, Function.update m.core k p⟩

/-- A step of the cores that use the lock at the address `lock`. Outside of its routines, a core does
anything but store to the lock. -/
inductive SpinStep (lock : Word) (m : SpinCores κ) : Option (SpinEvent κ) → SpinCores κ → Prop
  | call {k : κ} {f : SpinCall} {t : CoreRegs} (at_ : m.core k = .out) (hr : t.r 0 = lock) (hpc : t.pc = 0) :
    SpinStep lock m (some (.call k f)) (m.move k m.cluster (.code f t))
  | instr {k : κ} {f : SpinCall} {t t' : CoreRegs} {i : Instr} {s : Cluster κ} (at_ : m.core k = .code f t)
    (fetch : f.routine[t.pc]? = some i) (run : i.exec k m.cluster t = some (s, t')) :
    SpinStep lock m none (m.move k s (.code f t'))
  | ret {k : κ} {f : SpinCall} {t : CoreRegs} (at_ : m.core k = .code f t)
    (fetch : f.routine[t.pc]? = some .ret) :
    SpinStep lock m (some (.ret k f (f.ok (t.r 0)))) (m.move k m.cluster .out)
  /-- The monitor of a core loses its tag, by an exception or because others access words nearby. -/
  | lose {k : κ} : SpinStep lock m none { m with cluster := m.cluster.setTag k none }
  /-- An event from elsewhere. -/
  | wake {k : κ} : SpinStep lock m none { m with cluster := m.cluster.setEvent k true }
  | other {k : κ} {s : Cluster κ} (at_ : m.core k = .out) (hmem : s.mem lock = m.cluster.mem lock)
    (htag : ∀ j, j ≠ k → s.tag j = m.cluster.tag j ∨ s.tag j = none)
    (hevent : ∀ j, j ≠ k → m.cluster.event j = true → s.event j = true) :
    SpinStep lock m none { m with cluster := s }

/-! ## The atomic lock -/

/-- Where a core is in a call that takes effect in one step. -/
inductive SpinPhase where
  | out
  | pending (f : SpinCall)
  | done (f : SpinCall) (ok : Bool)
  deriving DecidableEq

structure AtomicLock (κ : Type) where
  held : Bool
  phase : κ → SpinPhase

/-- How a call takes effect. -/
inductive SpinPhase.Effect : Bool → SpinPhase → Bool → SpinPhase → Prop
  | take {f : SpinCall} (hf : f ≠ .unlock) : Effect false (.pending f) true (.done f true)
  | refuse : Effect true (.pending .trylock) true (.done .trylock false)
  | free {held : Bool} : Effect held (.pending .unlock) false (.done .unlock true)

def AtomicLock.move (a : AtomicLock κ) (k : κ) (held : Bool) (p : SpinPhase) : AtomicLock κ :=
  ⟨held, Function.update a.phase k p⟩

inductive AtomicStep (a : AtomicLock κ) : Option (SpinEvent κ) → AtomicLock κ → Prop
  | call {k : κ} {f : SpinCall} (at_ : a.phase k = .out) :
    AtomicStep a (some (.call k f)) (a.move k a.held (.pending f))
  | effect {k : κ} {held : Bool} {p : SpinPhase} (h : (a.phase k).Effect a.held held p) :
    AtomicStep a none (a.move k held p)
  | ret {k : κ} {f : SpinCall} {ok : Bool} (at_ : a.phase k = .done f ok) :
    AtomicStep a (some (.ret k f ok)) (a.move k a.held .out)

/-! ## Outlines of the routines -/

/-- What holds before each instruction of `__cpu_spin_lock`, with what is `kept` in the lock while the
core has its tag. -/
def lockOutline (lock : Word) (kept : Word → Prop) (t : CoreRegs) (p : SpinPhase) : Nat → Prop
  | 0 => t.r 0 = lock ∧ p = .pending .lock
  | 1 => t.r 0 = lock ∧ t.r 2 = spinlockLock ∧ p = .pending .lock
  | 2 => t.r 0 = lock ∧ t.r 2 = spinlockLock ∧ kept (t.r 1) ∧ p = .pending .lock
  | 3 | 4 => t.r 0 = lock ∧ t.r 2 = spinlockLock ∧ kept (t.r 1) ∧
      t.z = (t.r 1 == spinlockUnlock) ∧ p = .pending .lock
  | 5 => t.r 0 = lock ∧ t.r 2 = spinlockLock ∧
      p = if t.z = true ∧ t.r 1 = 0 then .done .lock true else .pending .lock
  | 6 => t.r 0 = lock ∧ t.r 2 = spinlockLock ∧ p = if t.z = true then .done .lock true else .pending .lock
  | 7 | 8 => p = .done .lock true
  | _ => False

def trylockOutline (lock : Word) (kept : Word → Prop) (t : CoreRegs) (p : SpinPhase) : Nat → Prop
  | 0 => t.r 0 = lock ∧ p = .pending .trylock
  | 1 => t.r 0 = lock ∧ t.r 2 = spinlockLock ∧ p = .pending .trylock
  | 2 => t.r 1 = lock ∧ t.r 2 = spinlockLock ∧ p = .pending .trylock
  | 3 => t.r 1 = lock ∧ t.r 2 = spinlockLock ∧ kept (t.r 0) ∧
      p = if t.r 0 = 0 then .pending .trylock else .done .trylock false
  | 4 => t.r 1 = lock ∧ t.r 2 = spinlockLock ∧ kept (t.r 0) ∧ t.z = (t.r 0 == 0) ∧
      p = if t.r 0 = 0 then .pending .trylock else .done .trylock false
  | 5 => t.r 1 = lock ∧ t.r 2 = spinlockLock ∧ kept 0 ∧ p = .pending .trylock
  | 6 => t.r 1 = lock ∧ t.r 2 = spinlockLock ∧
      p = if t.r 0 = 0 then .done .trylock true else .pending .trylock
  | 7 => t.r 1 = lock ∧ t.r 2 = spinlockLock ∧ t.z = (t.r 0 == 0) ∧
      p = if t.r 0 = 0 then .done .trylock true else .pending .trylock
  | 8 | 9 => t.r 0 = 0 ∧ p = .done .trylock true
  | 10 | 11 | 12 => t.r 0 ≠ 0 ∧ p = .done .trylock false
  | _ => False

def unlockOutline (lock : Word) (t : CoreRegs) (p : SpinPhase) : Nat → Prop
  | 0 | 1 => t.r 0 = lock ∧ p = .pending .unlock
  | 2 => t.r 0 = lock ∧ t.r 1 = spinlockUnlock ∧ p = .pending .unlock
  | 3 | 4 | 5 => p = .done .unlock true
  | _ => False

/-- The core is where its call has come to. -/
def SpinCore.Fits (lock : Word) (kept : Word → Prop) (p : SpinPhase) : SpinCore → Prop
  | out => p = .out
  | code .lock t => lockOutline lock kept t p t.pc
  | code .trylock t => trylockOutline lock kept t p t.pc
  | code .unlock t => unlockOutline lock t p t.pc

/-- The word of the lock. -/
def lockWord (held : Bool) : Word := if held then spinlockLock else spinlockUnlock

/-- The cores do what the atomic lock does. -/
structure AtomicLock.Shows (lock : Word) (a : AtomicLock κ) (m : SpinCores κ) : Prop where
  word : m.cluster.mem lock = lockWord a.held
  core : ∀ k, (m.core k).Fits lock (m.cluster.Kept k lock) (a.phase k)

/-! ## One instruction -/

/-- The call of a core takes effect, or nothing happens to it. -/
def SpinPhase.Moves (held : Bool) (p : SpinPhase) (held' : Bool) (p' : SpinPhase) : Prop :=
  (held' = held ∧ p' = p) ∨ p.Effect held held' p'

section Instr

variable {lock : Word} {s s' : Cluster κ} {k : κ} {held : Bool} {p : SpinPhase} {t t' : CoreRegs} {i : Instr}

omit [DecidableEq κ] in
theorem lockWord_eq_zero {held : Bool} (h : lockWord held = 0) : held = false := by
  cases held with
  | false => rfl
  | true => cases h

theorem lock_instr (hword : s.mem lock = lockWord held) (hfit : lockOutline lock (s.Kept k lock) t p t.pc)
    (hfetch : Spin.cpuSpinLock[t.pc]? = some i) (hrun : i.exec k s t = some (s', t')) :
    ∃ held' p', p.Moves held held' p' ∧ s'.mem lock = lockWord held' ∧
      lockOutline lock (s'.Kept k lock) t' p' t'.pc := by
  unfold Spin.cpuSpinLock at hfetch
  generalize hpc : t.pc = n at hfit hfetch
  rcases n with _ | _ | _ | _ | _ | _ | _ | _ | _ | n
  · obtain rfl := Option.some.inj hfetch
    obtain ⟨rfl, rfl⟩ := Prod.mk.inj (Option.some.inj hrun)
    obtain ⟨hlock, rfl⟩ := hfit
    refine ⟨held, _, .inl ⟨rfl, rfl⟩, hword, ?_⟩
    simp [lockOutline, hpc, hlock]
  · obtain rfl := Option.some.inj hfetch
    obtain ⟨rfl, rfl⟩ := Prod.mk.inj (Option.some.inj hrun)
    obtain ⟨hlock, hval, rfl⟩ := hfit
    refine ⟨held, _, .inl ⟨rfl, rfl⟩, hword, ?_⟩
    simp [lockOutline, hpc, hlock, hval, kept_setTag]
  · obtain rfl := Option.some.inj hfetch
    obtain ⟨rfl, rfl⟩ := Prod.mk.inj (Option.some.inj hrun)
    obtain ⟨hlock, hval, hkept, rfl⟩ := hfit
    refine ⟨held, _, .inl ⟨rfl, rfl⟩, hword, ?_⟩
    simp [lockOutline, hpc, hlock, hval, hkept, Cond.passes]
  · obtain rfl := Option.some.inj hfetch
    obtain ⟨hlock, hval, hkept, hz, rfl⟩ := hfit
    refine ⟨held, _, .inl ⟨rfl, rfl⟩, ?_⟩
    simp only [Instr.exec] at hrun
    split at hrun
    · split at hrun
      · obtain ⟨rfl, rfl⟩ := Prod.mk.inj (Option.some.inj hrun)
        refine ⟨hword, ?_⟩
        simp only [lockOutline, CoreRegs.next_pc, hpc]
        exact ⟨hlock, hval, hkept, hz, trivial⟩
      · cases hrun
    · obtain ⟨rfl, rfl⟩ := Prod.mk.inj (Option.some.inj hrun)
      refine ⟨hword, ?_⟩
      simp only [lockOutline, CoreRegs.next_pc, hpc]
      exact ⟨hlock, hval, hkept, hz, trivial⟩
  · -- the store succeeds if the lock still has what was loaded
    obtain rfl := Option.some.inj hfetch
    obtain ⟨hlock, hval, hkept, hz, rfl⟩ := hfit
    simp only [Instr.exec] at hrun
    by_cases hfree : Cond.eq.passes t.z = true
    · have hloaded : t.r 1 = 0 := by
        rw [Cond.passes, hz] at hfree
        exact eq_of_beq hfree
      rw [if_pos hfree] at hrun
      by_cases htag : s.tag k = some lock
      · have hheld : held = false := lockWord_eq_zero ((hword.symm.trans (hkept htag)).trans hloaded)
        rw [hlock, if_pos htag, hval] at hrun
        obtain ⟨rfl, rfl⟩ := Prod.mk.inj (Option.some.inj hrun)
        subst hheld
        refine ⟨true, _, .inr (.take (by decide)), ?_, ?_⟩
        · exact Function.update_self lock spinlockLock s.mem
        · have hz : t.z = true := hfree
          simp [lockOutline, hpc, hlock, hval, hz]
      · rw [hlock, if_neg htag] at hrun
        obtain ⟨rfl, rfl⟩ := Prod.mk.inj (Option.some.inj hrun)
        refine ⟨held, _, .inl ⟨rfl, rfl⟩, hword, ?_⟩
        simp [lockOutline, hpc, hlock, hval]
    · rw [if_neg hfree] at hrun
      obtain ⟨rfl, rfl⟩ := Prod.mk.inj (Option.some.inj hrun)
      refine ⟨held, _, .inl ⟨rfl, rfl⟩, hword, ?_⟩
      have hz : ¬ t.z = true := hfree
      simp [lockOutline, hpc, hlock, hval, hz]
  · obtain rfl := Option.some.inj hfetch
    obtain ⟨hlock, hval, rfl⟩ := hfit
    obtain ⟨rfl, rfl⟩ := Prod.mk.inj (Option.some.inj hrun)
    refine ⟨held, _, .inl ⟨rfl, rfl⟩, hword, ?_⟩
    cases hz : t.z <;> simp [lockOutline, hpc, hlock, hval, hz, Cond.passes]
  · obtain rfl := Option.some.inj hfetch
    obtain ⟨hlock, hval, rfl⟩ := hfit
    obtain ⟨rfl, rfl⟩ := Prod.mk.inj (Option.some.inj hrun)
    refine ⟨held, _, .inl ⟨rfl, rfl⟩, hword, ?_⟩
    cases hz : t.z <;> simp [lockOutline, hpc, hlock, hval, Cond.passes]
  · obtain rfl := Option.some.inj hfetch
    obtain rfl := hfit
    obtain ⟨rfl, rfl⟩ := Prod.mk.inj (Option.some.inj hrun)
    refine ⟨held, _, .inl ⟨rfl, rfl⟩, hword, ?_⟩
    simp [lockOutline, hpc]
  · obtain rfl := Option.some.inj hfetch
    cases hrun
  · exact absurd hfit id

theorem trylock_instr (hword : s.mem lock = lockWord held)
    (hfit : trylockOutline lock (s.Kept k lock) t p t.pc) (hfetch : Spin.cpuSpinTrylock[t.pc]? = some i)
    (hrun : i.exec k s t = some (s', t')) :
    ∃ held' p', p.Moves held held' p' ∧ s'.mem lock = lockWord held' ∧
      trylockOutline lock (s'.Kept k lock) t' p' t'.pc := by
  unfold Spin.cpuSpinTrylock at hfetch
  generalize hpc : t.pc = n at hfit hfetch
  rcases n with _ | _ | _ | _ | _ | _ | _ | _ | _ | _ | _ | _ | _ | n
  · obtain rfl := Option.some.inj hfetch
    obtain ⟨rfl, rfl⟩ := Prod.mk.inj (Option.some.inj hrun)
    obtain ⟨hlock, rfl⟩ := hfit
    refine ⟨held, _, .inl ⟨rfl, rfl⟩, hword, ?_⟩
    simp [trylockOutline, hpc, hlock]
  · obtain rfl := Option.some.inj hfetch
    obtain ⟨rfl, rfl⟩ := Prod.mk.inj (Option.some.inj hrun)
    obtain ⟨hlock, hval, rfl⟩ := hfit
    refine ⟨held, _, .inl ⟨rfl, rfl⟩, hword, ?_⟩
    simp [trylockOutline, hpc, hlock, hval]
  · -- a lock that is held refuses the call here
    obtain rfl := Option.some.inj hfetch
    obtain ⟨rfl, rfl⟩ := Prod.mk.inj (Option.some.inj hrun)
    obtain ⟨hlock, hval, rfl⟩ := hfit
    cases held with
    | true =>
      have hone : ¬ s.mem lock = 0#32 := by
        rw [hword]
        decide
      refine ⟨true, _, .inr .refuse, hword, ?_⟩
      simp [trylockOutline, hpc, hlock, hval, kept_setTag, hone]
    | false =>
      have hzero : s.mem lock = 0#32 := hword
      have hkept : (s.setTag k (some lock)).Kept k lock 0#32 := fun _ => hzero
      refine ⟨false, _, .inl ⟨rfl, rfl⟩, hword, ?_⟩
      simp [trylockOutline, hpc, hlock, hval, hkept, hzero]
  · obtain rfl := Option.some.inj hfetch
    obtain ⟨rfl, rfl⟩ := Prod.mk.inj (Option.some.inj hrun)
    obtain ⟨hlock, hval, hkept, rfl⟩ := hfit
    refine ⟨held, _, .inl ⟨rfl, rfl⟩, hword, ?_⟩
    simp [trylockOutline, hpc, hlock, hval, hkept, Cond.passes]
  · obtain rfl := Option.some.inj hfetch
    obtain ⟨rfl, rfl⟩ := Prod.mk.inj (Option.some.inj hrun)
    obtain ⟨hlock, hval, hkept, hz, rfl⟩ := hfit
    refine ⟨held, _, .inl ⟨rfl, rfl⟩, hword, ?_⟩
    by_cases hzero : t.r 0 = 0#32
    · rw [hzero] at hkept
      simp [trylockOutline, hpc, hlock, hval, hkept, hz, hzero, Cond.passes]
    · simp [trylockOutline, hz, hzero, Cond.passes]
  · -- the store succeeds if the lock is still free
    obtain rfl := Option.some.inj hfetch
    obtain ⟨hlock, hval, hkept, rfl⟩ := hfit
    have hpass : Cond.al.passes t.z = true := rfl
    simp only [Instr.exec] at hrun
    rw [if_pos hpass, hlock] at hrun
    by_cases htag : s.tag k = some lock
    · have hheld : held = false := lockWord_eq_zero (hword.symm.trans (hkept htag))
      rw [if_pos htag, hval] at hrun
      obtain ⟨rfl, rfl⟩ := Prod.mk.inj (Option.some.inj hrun)
      subst hheld
      refine ⟨true, _, .inr (.take (by decide)), ?_, ?_⟩
      · exact Function.update_self lock spinlockLock s.mem
      · simp [trylockOutline, hpc, hlock, hval]
    · rw [if_neg htag] at hrun
      obtain ⟨rfl, rfl⟩ := Prod.mk.inj (Option.some.inj hrun)
      refine ⟨held, _, .inl ⟨rfl, rfl⟩, hword, ?_⟩
      simp [trylockOutline, hpc, hlock, hval]
  · obtain rfl := Option.some.inj hfetch
    obtain ⟨rfl, rfl⟩ := Prod.mk.inj (Option.some.inj hrun)
    obtain ⟨hlock, hval, rfl⟩ := hfit
    refine ⟨held, _, .inl ⟨rfl, rfl⟩, hword, ?_⟩
    simp [trylockOutline, hpc, hlock, hval, Cond.passes]
  · obtain rfl := Option.some.inj hfetch
    obtain ⟨rfl, rfl⟩ := Prod.mk.inj (Option.some.inj hrun)
    obtain ⟨hlock, hval, hz, rfl⟩ := hfit
    refine ⟨held, _, .inl ⟨rfl, rfl⟩, hword, ?_⟩
    by_cases hzero : t.r 0 = 0#32
    · simp [trylockOutline, hpc, hz, hzero, Cond.passes]
    · simp [trylockOutline, hlock, hval, hz, hzero, Cond.passes]
  · obtain rfl := Option.some.inj hfetch
    obtain ⟨rfl, rfl⟩ := Prod.mk.inj (Option.some.inj hrun)
    refine ⟨held, p, .inl ⟨rfl, rfl⟩, hword, ?_⟩
    simpa [trylockOutline, hpc] using hfit
  · obtain rfl := Option.some.inj hfetch
    cases hrun
  · obtain rfl := Option.some.inj hfetch
    obtain ⟨rfl, rfl⟩ := Prod.mk.inj (Option.some.inj hrun)
    refine ⟨held, p, .inl ⟨rfl, rfl⟩, hword, ?_⟩
    simpa [trylockOutline, hpc] using hfit
  · obtain rfl := Option.some.inj hfetch
    obtain ⟨rfl, rfl⟩ := Prod.mk.inj (Option.some.inj hrun)
    refine ⟨held, p, .inl ⟨rfl, rfl⟩, hword, ?_⟩
    simpa [trylockOutline, hpc] using hfit
  · obtain rfl := Option.some.inj hfetch
    cases hrun
  · exact absurd hfit id

theorem unlock_instr (hword : s.mem lock = lockWord held) (hfit : unlockOutline lock t p t.pc)
    (hfetch : Spin.cpuSpinUnlock[t.pc]? = some i) (hrun : i.exec k s t = some (s', t')) :
    ∃ held' p', p.Moves held held' p' ∧ s'.mem lock = lockWord held' ∧
      unlockOutline lock t' p' t'.pc := by
  unfold Spin.cpuSpinUnlock at hfetch
  generalize hpc : t.pc = n at hfit hfetch
  rcases n with _ | _ | _ | _ | _ | _ | n
  · obtain rfl := Option.some.inj hfetch
    obtain ⟨rfl, rfl⟩ := Prod.mk.inj (Option.some.inj hrun)
    refine ⟨held, p, .inl ⟨rfl, rfl⟩, hword, ?_⟩
    simpa [unlockOutline, hpc] using hfit
  · obtain rfl := Option.some.inj hfetch
    obtain ⟨rfl, rfl⟩ := Prod.mk.inj (Option.some.inj hrun)
    refine ⟨held, p, .inl ⟨rfl, rfl⟩, hword, ?_⟩
    simpa [unlockOutline, hpc] using hfit
  · obtain rfl := Option.some.inj hfetch
    obtain ⟨hlock, hval, rfl⟩ := hfit
    obtain ⟨rfl, rfl⟩ := Prod.mk.inj (Option.some.inj hrun)
    refine ⟨false, _, .inr .free, ?_, ?_⟩
    · rw [hlock, hval]
      exact Function.update_self lock spinlockUnlock s.mem
    · simp [unlockOutline, hpc]
  · obtain rfl := Option.some.inj hfetch
    obtain ⟨rfl, rfl⟩ := Prod.mk.inj (Option.some.inj hrun)
    refine ⟨held, p, .inl ⟨rfl, rfl⟩, hword, ?_⟩
    simpa [unlockOutline, hpc] using hfit
  · obtain rfl := Option.some.inj hfetch
    obtain ⟨rfl, rfl⟩ := Prod.mk.inj (Option.some.inj hrun)
    refine ⟨held, p, .inl ⟨rfl, rfl⟩, hword, ?_⟩
    simpa [unlockOutline, hpc] using hfit
  · obtain rfl := Option.some.inj hfetch
    cases hrun
  · exact absurd hfit id

end Instr

/-! ## Refinement -/

section Refinement

variable {lock : Word} {m m' : SpinCores κ} {a : AtomicLock κ} {e : Option (SpinEvent κ)}
  {es : List (Option (SpinEvent κ))} {k : κ} {p : SpinPhase} {c : SpinCore} {f : SpinCall} {t : CoreRegs}

theorem SpinCore.Fits.mono {kept kept' : Word → Prop} (h : c.Fits lock kept p)
    (hkept : ∀ v, kept v → kept' v) : c.Fits lock kept' p := by
  cases c with
  | out => exact h
  | code f t =>
    cases f with
    | lock =>
      simp only [Fits] at h ⊢
      generalize t.pc = n at h ⊢
      rcases n with _ | _ | _ | _ | _ | _ | _ | _ | _ | n
      case succ.succ.zero => exact ⟨h.1, h.2.1, hkept _ h.2.2.1, h.2.2.2⟩
      case succ.succ.succ.zero => exact ⟨h.1, h.2.1, hkept _ h.2.2.1, h.2.2.2⟩
      case succ.succ.succ.succ.zero => exact ⟨h.1, h.2.1, hkept _ h.2.2.1, h.2.2.2⟩
      all_goals exact h
    | trylock =>
      simp only [Fits] at h ⊢
      generalize t.pc = n at h ⊢
      rcases n with _ | _ | _ | _ | _ | _ | _ | _ | _ | _ | _ | _ | _ | n
      case succ.succ.succ.zero => exact ⟨h.1, h.2.1, hkept _ h.2.2.1, h.2.2.2⟩
      case succ.succ.succ.succ.zero => exact ⟨h.1, h.2.1, hkept _ h.2.2.1, h.2.2.2⟩
      case succ.succ.succ.succ.succ.zero => exact ⟨h.1, h.2.1, hkept _ h.2.2.1, h.2.2.2⟩
      all_goals exact h
    | unlock => exact h

omit [DecidableEq κ] in
/-- A step of the cluster that takes no tagged word away. -/
theorem AtomicLock.Shows.quiet {s : Cluster κ} (h : a.Shows lock m)
    (hmem : s.mem lock = m.cluster.mem lock)
    (hkept : ∀ j, m.core j ≠ .out → ∀ v, m.cluster.Kept j lock v → s.Kept j lock v) :
    a.Shows lock { m with cluster := s } := by
  constructor
  · exact hmem.trans h.word
  · intro j
    by_cases hj : m.core j = .out
    · have hout := h.core j
      simp only [hj] at hout ⊢
      exact hout
    · exact (h.core j).mono (hkept j hj)

/-- A step of core `k`, from its own outline. -/
theorem AtomicLock.Shows.move {s : Cluster κ} {held : Bool} (h : a.Shows lock m)
    (hleads : m.cluster.Leads k s) (hword : s.mem lock = lockWord held)
    (hfit : c.Fits lock (s.Kept k lock) p) : (a.move k held p).Shows lock (m.move k s c) := by
  constructor
  · exact hword
  · intro j
    by_cases hj : j = k
    · subst hj
      simpa [SpinCores.move, AtomicLock.move] using hfit
    · simp only [SpinCores.move, AtomicLock.move, Function.update_of_ne hj]
      exact (h.core j).mono fun v => hleads.kept j hj lock v

theorem fits_fetch {kept : Word → Prop} (h : (SpinCore.code f t).Fits lock kept p) :
    f.routine[t.pc]? ≠ none := by
  intro hnone
  cases f with
  | lock =>
    simp only [SpinCore.Fits, SpinCall.routine, Spin.cpuSpinLock] at h hnone
    generalize t.pc = n at h hnone
    rcases n with _ | _ | _ | _ | _ | _ | _ | _ | _ | n
    case succ.succ.succ.succ.succ.succ.succ.succ.succ => exact h
    all_goals cases hnone
  | trylock =>
    simp only [SpinCore.Fits, SpinCall.routine, Spin.cpuSpinTrylock] at h hnone
    generalize t.pc = n at h hnone
    rcases n with _ | _ | _ | _ | _ | _ | _ | _ | _ | _ | _ | _ | _ | n
    case succ.succ.succ.succ.succ.succ.succ.succ.succ.succ.succ.succ.succ => exact h
    all_goals cases hnone
  | unlock =>
    simp only [SpinCore.Fits, SpinCall.routine, Spin.cpuSpinUnlock] at h hnone
    generalize t.pc = n at h hnone
    rcases n with _ | _ | _ | _ | _ | _ | n
    case succ.succ.succ.succ.succ.succ => exact h
    all_goals cases hnone

theorem fits_ret {kept : Word → Prop} (hfetch : f.routine[t.pc]? = some .ret)
    (h : (SpinCore.code f t).Fits lock kept p) : p = .done f (f.ok (t.r 0)) := by
  cases f with
  | lock =>
    simp only [SpinCore.Fits, SpinCall.routine, Spin.cpuSpinLock] at h hfetch
    generalize t.pc = n at h hfetch
    rcases n with _ | _ | _ | _ | _ | _ | _ | _ | _ | n
    case succ.succ.succ.succ.succ.succ.succ.succ.zero => exact h
    all_goals cases hfetch
  | trylock =>
    simp only [SpinCore.Fits, SpinCall.routine, Spin.cpuSpinTrylock] at h hfetch
    generalize t.pc = n at h hfetch
    rcases n with _ | _ | _ | _ | _ | _ | _ | _ | _ | _ | _ | _ | _ | n
    case succ.succ.succ.succ.succ.succ.succ.succ.succ.zero =>
      obtain ⟨hrc, rfl⟩ := h
      rw [hrc]
      rfl
    case succ.succ.succ.succ.succ.succ.succ.succ.succ.succ.succ.succ.zero =>
      obtain ⟨hrc, rfl⟩ := h
      have hok : (t.r 0 == 0) = false := beq_eq_false_iff_ne.mpr hrc
      rw [SpinCall.ok, hok]
    all_goals cases hfetch
  | unlock =>
    simp only [SpinCore.Fits, SpinCall.routine, Spin.cpuSpinUnlock] at h hfetch
    generalize t.pc = n at h hfetch
    rcases n with _ | _ | _ | _ | _ | _ | n
    case succ.succ.succ.succ.succ.zero => exact h
    all_goals cases hfetch

theorem fits_instr {s s' : Cluster κ} {t' : CoreRegs} {i : Instr} {held : Bool}
    (hword : s.mem lock = lockWord held) (hfit : (SpinCore.code f t).Fits lock (s.Kept k lock) p)
    (hfetch : f.routine[t.pc]? = some i) (hrun : i.exec k s t = some (s', t')) :
    ∃ held' p', p.Moves held held' p' ∧ s'.mem lock = lockWord held' ∧
      (SpinCore.code f t').Fits lock (s'.Kept k lock) p' := by
  cases f with
  | lock => exact lock_instr hword hfit hfetch hrun
  | trylock => exact trylock_instr hword hfit hfetch hrun
  | unlock => exact unlock_instr hword hfit hfetch hrun

/-- A step of the cores is one of the atomic lock, or none. -/
theorem shows_step (h : a.Shows lock m) (hstep : SpinStep lock m e m') :
    ∃ a', (AtomicStep a e a' ∨ (e = none ∧ a' = a)) ∧ a'.Shows lock m' := by
  cases hstep with
  | @call k f t hat hr hpc =>
    have hphase : a.phase k = .out := by
      have hout := h.core k
      rw [hat] at hout
      exact hout
    refine ⟨_, .inl (.call hphase), h.move (.refl k _) h.word ?_⟩
    cases f <;> simp [SpinCore.Fits, lockOutline, trylockOutline, unlockOutline, hpc, hr]
  | @instr k f t t' i s hat hfetch hrun =>
    have hfit := h.core k
    rw [hat] at hfit
    obtain ⟨held, p, hmoves, hword, hfit'⟩ := fits_instr h.word hfit hfetch hrun
    have hshows : (a.move k held p).Shows lock (m.move k s (.code f t')) :=
      h.move (exec_leads hrun) hword hfit'
    rcases hmoves with ⟨rfl, rfl⟩ | heffect
    · have hsame : a.move k a.held (a.phase k) = a := by
        simp [AtomicLock.move]
      rw [hsame] at hshows
      exact ⟨a, .inr ⟨rfl, rfl⟩, hshows⟩
    · exact ⟨_, .inl (.effect heffect), hshows⟩
  | @ret k f t hat hfetch =>
    have hfit := h.core k
    rw [hat] at hfit
    refine ⟨_, .inl (.ret (fits_ret hfetch hfit)), h.move (.refl k _) h.word rfl⟩
  | @lose k =>
    refine ⟨a, .inr ⟨rfl, rfl⟩, h.quiet rfl fun j _ v hj => ?_⟩
    by_cases hjk : j = k
    · subst hjk
      exact kept_none
    · exact leads_setTag.kept j hjk lock v hj
  | @wake k => exact ⟨a, .inr ⟨rfl, rfl⟩, h.quiet rfl fun _ _ _ hj => hj⟩
  | @other k s hat hmem htag hevent =>
    refine ⟨a, .inr ⟨rfl, rfl⟩, h.quiet hmem fun j hout v hj hlock => ?_⟩
    have hjk : j ≠ k := by
      rintro rfl
      exact hout hat
    rcases htag j hjk with heq | hnone
    · rw [hmem]
      exact hj (heq.symm.trans hlock)
    · rw [hnone] at hlock
      cases hlock

theorem shows_steps (h : a.Shows lock m) (hrun : Steps (SpinStep lock) m es m') :
    ∃ es' a', Steps AtomicStep a es' a' ∧ es'.reduceOption = es.reduceOption ∧ a'.Shows lock m' := by
  induction hrun generalizing a with
  | nil m => exact ⟨[], a, .nil a, rfl, h⟩
  | @cons m m₁ m' e es first rest ih =>
    obtain ⟨a₁, hstep, h₁⟩ := shows_step h first
    obtain ⟨es', a', hsteps, hevents, h'⟩ := ih h₁
    rcases hstep with hstep | ⟨rfl, rfl⟩
    · refine ⟨e :: es', a', .cons hstep hsteps, ?_, h'⟩
      cases e with
      | none => exact hevents
      | some e => exact congrArg (List.cons e) hevents
    · exact ⟨es', a', hsteps, hevents, h'⟩

end Refinement

/-! ## Exclusion -/

/-- Whether core `k` has the lock after the event, if it had it before as `h` says. -/
def SpinEvent.holds (k : κ) (h : Bool) : SpinEvent κ → Bool
  | .call j f => if j = k ∧ f = .unlock then false else h
  | .ret j f ok => if j = k ∧ f ≠ .unlock then h || ok else h

/-- Whether core `k` has the lock after some events, for a client. -/
def hasLock (k : κ) (es : List (SpinEvent κ)) (h : Bool) : Bool := es.foldl (fun h e => e.holds k h) h

/-- Only a core that has the lock unlocks it. -/
def PoliteSpins (h : κ → Bool) : List (SpinEvent κ) → Prop
  | [] => True
  | e :: es => (∀ k, e = .call k .unlock → h k = true) ∧ PoliteSpins (fun k => e.holds k (h k)) es

/-- The core has the lock: for the client, or in a call that has taken or has yet to release it. -/
def SpinPhase.Owns (h : Bool) (p : SpinPhase) : Prop :=
  h = true ∨ (∃ f, f ≠ .unlock ∧ p = .done f true) ∨ p = .pending .unlock

/-- The lock is held exactly if a core has it, and then by one core. -/
structure AtomicLock.Owned (h : κ → Bool) (a : AtomicLock κ) : Prop where
  unique : ∀ j k, (a.phase j).Owns (h j) → (a.phase k).Owns (h k) → j = k
  held : a.held = true ↔ ∃ k, (a.phase k).Owns (h k)
  unlocking : ∀ k, (a.phase k = .pending .unlock ∨ a.phase k = .done .unlock true) → h k = false

section Exclusion

variable {h h' : κ → Bool} {a a' : AtomicLock κ} {k : κ} {held : Bool} {p : SpinPhase}
  {es : List (Option (SpinEvent κ))} {e : Option (SpinEvent κ)}

theorem AtomicLock.Owned.move (ho : a.Owned h) (hsame : ∀ j, j ≠ k → h' j = h j)
    (halone : p.Owns (h' k) → ∀ j, j ≠ k → ¬ (a.phase j).Owns (h j))
    (hheld : held = true ↔ p.Owns (h' k) ∨ ∃ j, j ≠ k ∧ (a.phase j).Owns (h j))
    (hunlocking : p = .pending .unlock ∨ p = .done .unlock true → h' k = false) :
    (a.move k held p).Owned h' := by
  have hself : (a.move k held p).phase k = p := by
    simp [AtomicLock.move]
  have hother : ∀ j, j ≠ k → (a.move k held p).phase j = a.phase j := by
    intro j hj
    simp [AtomicLock.move, hj]
  constructor
  · intro i j hi hj
    by_cases hik : i = k
    · by_cases hjk : j = k
      · rw [hik, hjk]
      · subst hik
        rw [hself] at hi
        rw [hother j hjk, hsame j hjk] at hj
        exact absurd hj (halone hi j hjk)
    · rw [hother i hik, hsame i hik] at hi
      by_cases hjk : j = k
      · subst hjk
        rw [hself] at hj
        exact absurd hi (halone hj i hik)
      · rw [hother j hjk, hsame j hjk] at hj
        exact ho.unique i j hi hj
  · apply hheld.trans
    constructor
    · rintro (hk | ⟨j, hj, hown⟩)
      · exact ⟨k, by rwa [hself]⟩
      · exact ⟨j, by rwa [hother j hj, hsame j hj]⟩
    · rintro ⟨j, hown⟩
      by_cases hj : j = k
      · subst hj
        rw [hself] at hown
        exact .inl hown
      · rw [hother j hj, hsame j hj] at hown
        exact .inr ⟨j, hj, hown⟩
  · intro j hj
    by_cases hjk : j = k
    · subst hjk
      rw [hself] at hj
      exact hunlocking hj
    · rw [hother j hjk] at hj
      rw [hsame j hjk]
      exact ho.unlocking j hj

/-- A step by which core `k` neither gets nor loses the lock. -/
theorem AtomicLock.Owned.keep (ho : a.Owned h) (hsame : ∀ j, j ≠ k → h' j = h j)
    (hown : p.Owns (h' k) ↔ (a.phase k).Owns (h k))
    (hunlocking : p = .pending .unlock ∨ p = .done .unlock true → h' k = false) :
    (a.move k a.held p).Owned h' := by
  apply ho.move hsame ?_ ?_ hunlocking
  · intro hk j hj hj'
    exact hj (ho.unique j k hj' (hown.mp hk))
  · rw [ho.held, hown]
    constructor
    · rintro ⟨j, hj⟩
      by_cases hjk : j = k
      · subst hjk
        exact .inl hj
      · exact .inr ⟨j, hjk, hj⟩
    · rintro (hk | ⟨j, -, hj⟩)
      · exact ⟨k, hk⟩
      · exact ⟨j, hj⟩

omit [DecidableEq κ] in
theorem owned_start : (⟨false, fun _ => .out⟩ : AtomicLock κ).Owned fun _ => false := by
  constructor
  · intro j k hj
    simp [SpinPhase.Owns] at hj
  · simp [SpinPhase.Owns]
  · intro k _
    rfl

/-- What a step does to who has the lock. -/
def afterStep (h : κ → Bool) (e : Option (SpinEvent κ)) (k : κ) : Bool :=
  match e with
  | some e => e.holds k (h k)
  | none => h k

theorem owned_effect (ho : a.Owned h) (heffect : (a.phase k).Effect a.held held p) :
    (a.move k held p).Owned h := by
  generalize hphase : a.phase k = q at heffect
  generalize hheld : a.held = b at heffect
  cases heffect with
  | take hf =>
    have hnone : ∀ j, ¬ (a.phase j).Owns (h j) := by
      intro j hj
      have htrue := ho.held.mpr ⟨j, hj⟩
      rw [hheld] at htrue
      cases htrue
    apply ho.move (fun _ _ => rfl)
    · intro _ j _
      exact hnone j
    · simp [SpinPhase.Owns, hf]
    · rintro (hp | hp)
      · cases hp
      · cases hp
        exact absurd rfl hf
  | refuse =>
    rw [← hheld]
    apply ho.keep (fun _ _ => rfl)
    · rw [hphase]
      simp [SpinPhase.Owns]
    · rintro (hp | hp) <;> cases hp
  | free =>
    have hown : (a.phase k).Owns (h k) := .inr (.inr hphase)
    have hk := ho.unlocking k (.inl hphase)
    apply ho.move (fun _ _ => rfl)
    · intro _ j hj hj'
      exact hj (ho.unique j k hj' hown)
    · simp only [Bool.false_eq_true, false_iff, not_or, not_exists, not_and]
      constructor
      · simp [SpinPhase.Owns, hk]
      · intro j hj hj'
        exact hj (ho.unique j k hj' hown)
    · intro _
      exact hk

theorem owned_step (ho : a.Owned h) (hpolite : ∀ k, e = some (.call k .unlock) → h k = true)
    (hstep : AtomicStep a e a') : a'.Owned (afterStep h e) := by
  cases hstep with
  | @call k f hat =>
    have hother : ∀ j, j ≠ k → afterStep h (some (.call k f)) j = h j := by
      intro j hj
      simp [afterStep, SpinEvent.holds, Ne.symm hj]
    apply ho.keep hother
    · rw [hat]
      cases f with
      | lock | trylock => simp [afterStep, SpinEvent.holds, SpinPhase.Owns]
      | unlock => simp [SpinPhase.Owns, hpolite k rfl]
    · intro hp
      cases f with
      | lock | trylock => simp at hp
      | unlock => simp [afterStep, SpinEvent.holds]
  | @effect k held p heffect => exact owned_effect ho heffect
  | @ret k f ok hat =>
    have hother : ∀ j, j ≠ k → afterStep h (some (.ret k f ok)) j = h j := by
      intro j hj
      simp [afterStep, SpinEvent.holds, Ne.symm hj]
    apply ho.keep hother
    · rw [hat]
      cases f with
      | lock | trylock => cases ok <;> simp [afterStep, SpinEvent.holds, SpinPhase.Owns]
      | unlock => cases ok <;> simp [afterStep, SpinEvent.holds, SpinPhase.Owns]
    · intro hp
      simp at hp

theorem owned_steps (ho : a.Owned h) (hpolite : PoliteSpins h es.reduceOption)
    (hrun : Steps AtomicStep a es a') : a'.Owned fun k => hasLock k es.reduceOption (h k) := by
  induction hrun generalizing h with
  | nil a => exact ho
  | @cons a a₁ a' e es first rest ih =>
    cases e with
    | none => exact ih (owned_step ho (fun _ habs => by cases habs) first) hpolite
    | some e =>
      obtain ⟨hfirst, hrest⟩ := hpolite
      have hpolite₁ : ∀ k, some e = some (.call k .unlock) → h k = true :=
        fun k hk => hfirst k (Option.some.inj hk)
      exact ih (owned_step ho hpolite₁ first) hrest

end Exclusion

/-! ## Events -/

/-- Some core has stored in `__cpu_spin_unlock` and has yet to send its event. -/
def SpinCores.Sending (m : SpinCores κ) : Prop :=
  ∃ j t, m.core j = .code .unlock t ∧ (t.pc = 3 ∨ t.pc = 4)

/-- A core that has found the lock held, and has no event, will be sent one when the lock is free. -/
def SpinCores.Woken (lock : Word) (m : SpinCores κ) : Prop :=
  ∀ k t, m.core k = .code .lock t → (t.pc = 2 ∨ t.pc = 3) → t.r 1 ≠ 0 → m.cluster.event k = false →
    m.cluster.mem lock ≠ 0 ∨ m.Sending

section Events

variable {lock : Word} {m m' : SpinCores κ} {a : AtomicLock κ} {e : Option (SpinEvent κ)}
  {s s' : Cluster κ} {k : κ} {p : SpinPhase} {f : SpinCall} {t t' : CoreRegs} {i : Instr}

omit [DecidableEq κ] in
theorem fits_pending_unlock {kept : Word → Prop}
    (h : (SpinCore.code f t).Fits lock kept (.pending .unlock)) : f = .unlock ∧ t.pc ≤ 2 := by
  cases f with
  | lock =>
    simp only [SpinCore.Fits] at h
    generalize t.pc = n at h
    rcases n with _ | _ | _ | _ | _ | _ | _ | _ | _ | n
    case succ.succ.succ.succ.succ.zero =>
      have hp := h.2.2
      split at hp <;> cases hp
    case succ.succ.succ.succ.succ.succ.zero =>
      have hp := h.2.2
      split at hp <;> cases hp
    all_goals simp [lockOutline] at h
  | trylock =>
    simp only [SpinCore.Fits] at h
    generalize t.pc = n at h
    rcases n with _ | _ | _ | _ | _ | _ | _ | _ | _ | _ | _ | _ | _ | n
    case succ.succ.succ.zero =>
      have hp := h.2.2.2
      split at hp <;> cases hp
    case succ.succ.succ.succ.zero =>
      have hp := h.2.2.2.2
      split at hp <;> cases hp
    case succ.succ.succ.succ.succ.succ.zero =>
      have hp := h.2.2
      split at hp <;> cases hp
    case succ.succ.succ.succ.succ.succ.succ.zero =>
      have hp := h.2.2.2
      split at hp <;> cases hp
    all_goals simp [trylockOutline] at h
  | unlock =>
    refine ⟨rfl, ?_⟩
    simp only [SpinCore.Fits] at h
    generalize t.pc = n at h ⊢
    rcases n with _ | _ | _ | _ | _ | _ | n
    case zero | succ.zero | succ.succ.zero => omega
    all_goals simp [unlockOutline] at h

/-- The lock is set to zero by `__cpu_spin_unlock` alone, which then is about to send an event. -/
theorem instr_word {held : Bool} (hword : s.mem lock = lockWord held)
    (hfit : (SpinCore.code f t).Fits lock (s.Kept k lock) p) (hfetch : f.routine[t.pc]? = some i)
    (hrun : i.exec k s t = some (s', t')) (hne : s.mem lock ≠ 0) :
    s'.mem lock ≠ 0 ∨ (f = .unlock ∧ t'.pc = 3) := by
  obtain ⟨held', p', hmoves, hword', hfit'⟩ := fits_instr hword hfit hfetch hrun
  rcases hmoves with ⟨rfl, rfl⟩ | heffect
  · left
    rwa [hword', ← hword]
  · cases heffect with
    | take hf => exact absurd hword hne
    | refuse =>
      left
      rw [hword']
      decide
    | free =>
      right
      obtain ⟨rfl, hpc⟩ := fits_pending_unlock hfit
      refine ⟨rfl, ?_⟩
      simp only [SpinCall.routine, Spin.cpuSpinUnlock] at hfetch
      simp only [SpinCore.Fits] at hfit'
      generalize hn : t.pc = n at hpc hfetch
      rcases n with _ | _ | _ | n
      · obtain rfl := Option.some.inj hfetch
        obtain ⟨-, rfl⟩ := Prod.mk.inj (Option.some.inj hrun)
        simp [unlockOutline, hn] at hfit'
      · obtain rfl := Option.some.inj hfetch
        obtain ⟨-, rfl⟩ := Prod.mk.inj (Option.some.inj hrun)
        simp [unlockOutline, hn] at hfit'
      · obtain rfl := Option.some.inj hfetch
        obtain ⟨-, rfl⟩ := Prod.mk.inj (Option.some.inj hrun)
        simp [hn]
      · omega

/-- A core that is to send an event goes on to do so, or has sent it to all. -/
theorem sending_instr (hat : m.core k = .code f t) (hfetch : f.routine[t.pc]? = some i)
    (hrun : i.exec k m.cluster t = some (s', t')) (h : m.Sending) :
    (m.move k s' (.code f t')).Sending ∨ ∀ j, s'.event j = true := by
  obtain ⟨j, u, hj, hpc⟩ := h
  by_cases hjk : j = k
  · subst hjk
    obtain ⟨rfl, rfl⟩ : f = .unlock ∧ t = u := by
      simpa [hat] using hj
    simp only [SpinCall.routine, Spin.cpuSpinUnlock] at hfetch
    rcases hpc with hpc | hpc
    · rw [hpc] at hfetch
      obtain rfl := Option.some.inj hfetch
      obtain ⟨-, rfl⟩ := Prod.mk.inj (Option.some.inj hrun)
      exact .inl ⟨j, t.next, by simp [SpinCores.move], .inr (by simp [hpc])⟩
    · rw [hpc] at hfetch
      obtain rfl := Option.some.inj hfetch
      obtain ⟨rfl, -⟩ := Prod.mk.inj (Option.some.inj hrun)
      exact .inr fun _ => rfl
  · exact .inl ⟨j, u, by simpa [SpinCores.move, hjk] using hj, hpc⟩

/-- A core that finds the lock held has just loaded it. -/
theorem waiting_instr (hfit : (SpinCore.code .lock t).Fits lock (s.Kept k lock) p)
    (hfetch : Spin.cpuSpinLock[t.pc]? = some i) (hrun : i.exec k s t = some (s', t'))
    (hpc : t'.pc = 2 ∨ t'.pc = 3) (hne : t'.r 1 ≠ 0) :
    s'.mem lock ≠ 0 ∨ (t.pc = 2 ∧ t.r 1 ≠ 0 ∧ s' = s) := by
  simp only [SpinCore.Fits] at hfit
  unfold Spin.cpuSpinLock at hfetch
  generalize hn : t.pc = n at hfit hfetch
  rcases n with _ | _ | _ | _ | _ | _ | _ | _ | _ | n
  case zero =>
    obtain rfl := Option.some.inj hfetch
    obtain ⟨rfl, rfl⟩ := Prod.mk.inj (Option.some.inj hrun)
    simp [hn] at hpc
  case succ.zero =>
    obtain rfl := Option.some.inj hfetch
    obtain ⟨rfl, rfl⟩ := Prod.mk.inj (Option.some.inj hrun)
    left
    rw [CoreRegs.set_self, hfit.1] at hne
    exact hne
  case succ.succ.zero =>
    obtain rfl := Option.some.inj hfetch
    obtain ⟨rfl, rfl⟩ := Prod.mk.inj (Option.some.inj hrun)
    exact .inr ⟨rfl, hne, rfl⟩
  case succ.succ.succ.zero =>
    obtain rfl := Option.some.inj hfetch
    simp only [Instr.exec] at hrun
    split at hrun
    · split at hrun
      · obtain ⟨rfl, rfl⟩ := Prod.mk.inj (Option.some.inj hrun)
        simp [hn] at hpc
      · cases hrun
    · obtain ⟨rfl, rfl⟩ := Prod.mk.inj (Option.some.inj hrun)
      simp [hn] at hpc
  case succ.succ.succ.succ.zero =>
    obtain rfl := Option.some.inj hfetch
    simp only [Instr.exec] at hrun
    split at hrun
    · split at hrun
      · obtain ⟨rfl, rfl⟩ := Prod.mk.inj (Option.some.inj hrun)
        simp [hn] at hpc
      · obtain ⟨rfl, rfl⟩ := Prod.mk.inj (Option.some.inj hrun)
        simp [hn] at hpc
    · obtain ⟨rfl, rfl⟩ := Prod.mk.inj (Option.some.inj hrun)
      simp [hn] at hpc
  case succ.succ.succ.succ.succ.zero =>
    obtain rfl := Option.some.inj hfetch
    obtain ⟨rfl, rfl⟩ := Prod.mk.inj (Option.some.inj hrun)
    split at hpc <;> simp [hn] at hpc
  case succ.succ.succ.succ.succ.succ.zero =>
    obtain rfl := Option.some.inj hfetch
    obtain ⟨rfl, rfl⟩ := Prod.mk.inj (Option.some.inj hrun)
    split at hpc <;> simp [hn] at hpc
  case succ.succ.succ.succ.succ.succ.succ.zero =>
    obtain rfl := Option.some.inj hfetch
    obtain ⟨rfl, rfl⟩ := Prod.mk.inj (Option.some.inj hrun)
    simp [hn] at hpc
  case succ.succ.succ.succ.succ.succ.succ.succ.zero =>
    obtain rfl := Option.some.inj hfetch
    cases hrun
  case succ.succ.succ.succ.succ.succ.succ.succ.succ => exact absurd hfit id

/-- A step of core `k` that leaves the cluster alone, and is neither in `__cpu_spin_lock` nor about to
send an event. -/
theorem SpinCores.Woken.move {c : SpinCore} (hw : m.Woken lock)
    (hold : ∀ t, m.core k = .code .unlock t → t.pc ≠ 3 ∧ t.pc ≠ 4)
    (hnew : ∀ t, c = .code .lock t → t.pc = 0) : (m.move k m.cluster c).Woken lock := by
  intro j t hj hpc hne hevent
  have hjk : j ≠ k := by
    rintro rfl
    have hzero := hnew t (by simpa [SpinCores.move] using hj)
    omega
  have hj' : m.core j = .code .lock t := by
    simpa [SpinCores.move, hjk] using hj
  rcases hw j t hj' hpc hne hevent with hmem | ⟨i, u, hi, hu⟩
  · exact .inl hmem
  · have hik : i ≠ k := by
      rintro rfl
      have hold := hold u hi
      omega
    exact .inr ⟨i, u, by simpa [SpinCores.move, hik] using hi, hu⟩

omit [DecidableEq κ] in
/-- A step of the cluster by which no waiting core loses an event. -/
theorem SpinCores.Woken.quiet (hw : m.Woken lock) (hmem : s.mem lock = m.cluster.mem lock)
    (hevent : ∀ j, m.core j ≠ .out → m.cluster.event j = true → s.event j = true) :
    SpinCores.Woken lock { m with cluster := s } := by
  intro j t hj hpc hne hnone
  have hnone' : m.cluster.event j = false := by
    apply Bool.eq_false_iff.mpr
    intro htrue
    have hout : m.core j ≠ .out := by
      intro hout
      rw [show m.core j = .code .lock t from hj] at hout
      cases hout
    rw [hevent j hout htrue] at hnone
    cases hnone
  rcases hw j t hj hpc hne hnone' with hne | hsending
  · left
    rw [hmem]
    exact hne
  · exact .inr hsending

theorem woken_instr (h : a.Shows lock m) (hw : m.Woken lock) (hat : m.core k = .code f t)
    (hfetch : f.routine[t.pc]? = some i) (hrun : i.exec k m.cluster t = some (s', t')) :
    (m.move k s' (.code f t')).Woken lock := by
  have hfit := h.core k
  rw [hat] at hfit
  intro j u hj hpc hne hevent
  by_cases hjk : j = k
  · subst hjk
    obtain ⟨rfl, rfl⟩ : f = .lock ∧ t' = u := by
      simpa [SpinCores.move] using hj
    rcases waiting_instr hfit hfetch hrun hpc hne with hmem | ⟨hpc, hne, rfl⟩
    · exact .inl hmem
    · rcases hw j t hat (.inl hpc) hne hevent with hmem | hsending
      · exact .inl hmem
      · rcases sending_instr hat hfetch hrun hsending with hsending | hall
        · exact .inr hsending
        · exact absurd ((hall j).symm.trans hevent) (by decide)
  · have hj' : m.core j = .code .lock u := by
      simpa [SpinCores.move, hjk] using hj
    have hnone : m.cluster.event j = false := by
      apply Bool.eq_false_iff.mpr
      intro htrue
      exact absurd (((exec_leads hrun).event j hjk htrue).symm.trans hevent) (by decide)
    rcases hw j u hj' hpc hne hnone with hmem | hsending
    · rcases instr_word h.word hfit hfetch hrun hmem with hmem' | ⟨rfl, hpc'⟩
      · exact .inl hmem'
      · exact .inr ⟨k, t', by simp [SpinCores.move], .inl hpc'⟩
    · rcases sending_instr hat hfetch hrun hsending with hsending | hall
      · exact .inr hsending
      · exact absurd ((hall j).symm.trans hevent) (by decide)

theorem woken_step (h : a.Shows lock m) (hw : m.Woken lock) (hstep : SpinStep lock m e m') :
    m'.Woken lock := by
  cases hstep with
  | @call k f t hat hr hpc =>
    apply hw.move
    · intro u hu
      rw [hat] at hu
      cases hu
    · intro u hu
      cases hu
      exact hpc
  | instr hat hfetch hrun => exact woken_instr h hw hat hfetch hrun
  | @ret k f t hat hfetch =>
    apply hw.move
    · intro u hu
      obtain ⟨rfl, rfl⟩ : f = .unlock ∧ t = u := by
        simpa [hat] using hu
      constructor
      · intro hpc
        rw [hpc] at hfetch
        cases hfetch
      · intro hpc
        rw [hpc] at hfetch
        cases hfetch
    · intro u hu
      cases hu
  | lose => exact hw.quiet rfl fun _ _ hj => hj
  | @wake k =>
    refine hw.quiet (s := m.cluster.setEvent k true) rfl fun j _ hj => ?_
    by_cases hjk : j = k
    · simp [Cluster.setEvent, hjk]
    · simpa [Cluster.setEvent, hjk] using hj
  | @other k s hat hmem htag hevent =>
    apply hw.quiet hmem
    intro j hout hj
    apply hevent j ?_ hj
    rintro rfl
    exact hout hat

end Events

/-! ## Progress -/

section Progress

variable {lock : Word} {m m' : SpinCores κ} {s s' : Cluster κ} {k : κ} {f : SpinCall} {t t' : CoreRegs} {n : Nat}

theorem steps_of_runFor (hat : m.core k = .code f t)
    (h : runFor k f.routine n (m.cluster, t) = some (s, t')) :
    Steps (SpinStep lock) m (List.replicate n none) (m.move k s (.code f t')) := by
  induction n generalizing m t with
  | zero =>
    obtain ⟨rfl, rfl⟩ := Prod.mk.inj (Option.some.inj h)
    have hsame : m.move k m.cluster (.code f t) = m := by
      simp [SpinCores.move, ← hat]
    rw [hsame]
    exact .nil m
  | succ n ih =>
    obtain ⟨i, hfetch, h⟩ := Option.bind_eq_some_iff.mp h
    obtain ⟨⟨s₁, t₁⟩, hrun, h⟩ := Option.bind_eq_some_iff.mp h
    have hat₁ : (m.move k s₁ (.code f t₁)).core k = .code f t₁ := by
      simp [SpinCores.move]
    have hrest := ih hat₁ h
    have hmove : (m.move k s₁ (.code f t₁)).move k s (.code f t') = m.move k s (.code f t') := by
      simp [SpinCores.move]
    rw [hmove] at hrest
    exact .cons (.instr hat hfetch hrun) hrest

/-- Core `k`, alone, is at the return of `__cpu_spin_lock` after at most `n` instructions. -/
def LockReturns (k : κ) (n : Nat) (s : Cluster κ) (t : CoreRegs) : Prop :=
  ∃ l ≤ n, ∃ s' t', runFor k Spin.cpuSpinLock l (s, t) = some (s', t') ∧
    Spin.cpuSpinLock[t'.pc]? = some .ret

theorem LockReturns.step {i : Instr} (hfetch : Spin.cpuSpinLock[t.pc]? = some i)
    (hrun : i.exec k s t = some (s', t')) (h : LockReturns k n s' t') : LockReturns k (n + 1) s t := by
  obtain ⟨l, hl, s₂, t₂, hrest, hret⟩ := h
  refine ⟨l + 1, Nat.succ_le_succ hl, s₂, t₂, ?_, hret⟩
  simp [runFor, hfetch, hrun, hrest]

theorem LockReturns.mono {n' : Nat} (h : LockReturns k n s t) (hle : n ≤ n') : LockReturns k n' s t := by
  obtain ⟨l, hl, hrest⟩ := h
  exact ⟨l, Nat.le_trans hl hle, hrest⟩

theorem lockReturns_seven (hpc : t.pc = 7) : LockReturns k 1 s t := by
  have hret : LockReturns k 0 s t.next := ⟨0, Nat.le_refl 0, s, t.next, rfl, by simp [hpc, Spin.cpuSpinLock]⟩
  exact .step (by rw [hpc]; rfl) rfl hret

theorem lockReturns_six (hpc : t.pc = 6) (hz : t.z = true) : LockReturns k 2 s t := by
  apply LockReturns.step (i := .b .ne 1) (by rw [hpc]; rfl) rfl
  have hnext : ¬ Cond.ne.passes t.z = true := by simp [Cond.passes, hz]
  rw [if_neg hnext]
  exact lockReturns_seven (by simp [hpc])

theorem lockReturns_five (hpc : t.pc = 5) (hz : t.z = true) (hr : t.r 1 = 0#32) : LockReturns k 3 s t := by
  apply LockReturns.step (i := .cmp .eq 1 0) (by rw [hpc]; rfl) rfl
  apply lockReturns_six
  · simp [hz, hpc, Cond.passes]
  · simp [hz, hr, Cond.passes]

theorem lockReturns_four (hpc : t.pc = 4) (hz : t.z = true) (htag : s.tag k = some (t.r 0)) :
    LockReturns k 4 s t := by
  have hrun : (Instr.strex .eq 1 2 0).exec k s t =
      some ((s.store k (t.r 0) (t.r 2)).setTag k none, t.set 1 0) := by
    simp [Instr.exec, Cond.passes, hz, htag]
  apply LockReturns.step (by rw [hpc]; rfl) hrun
  exact lockReturns_five (by simp [hpc]) hz (by simp)

theorem lockReturns_three (hpc : t.pc = 3) (hz : t.z = true) (htag : s.tag k = some (t.r 0)) :
    LockReturns k 5 s t := by
  have hrun : (Instr.wfe .ne).exec k s t = some (s, t.next) := by
    simp [Instr.exec, Cond.passes, hz]
  apply LockReturns.step (by rw [hpc]; rfl) hrun
  exact lockReturns_four (by simp [hpc]) hz htag

theorem lockReturns_two (hpc : t.pc = 2) (hr : t.r 1 = 0#32) (htag : s.tag k = some (t.r 0)) :
    LockReturns k 6 s t := by
  apply LockReturns.step (i := .cmp .al 1 spinlockUnlock) (by rw [hpc]; rfl) rfl
  apply lockReturns_three
  · simp [hpc, Cond.passes]
  · simp [hr, Cond.passes, spinlockUnlock]
  · simpa [Cond.passes] using htag

/-- From the load on, a core that is alone takes a free lock. -/
theorem lockReturns_one (hpc : t.pc = 1) (hfree : s.mem (t.r 0) = 0#32) : LockReturns k 7 s t := by
  apply LockReturns.step (i := .ldrex 1 0) (by rw [hpc]; rfl) rfl
  apply lockReturns_two
  · simp [hpc]
  · simpa using hfree
  · simp [Cluster.setTag]

/-- The other way round the loop. -/
theorem lockReturns_retry (hpc : t.pc = 6) (hz : t.z = false) (hfree : s.mem (t.r 0) = 0#32) :
    LockReturns k 8 s t := by
  apply LockReturns.step (i := .b .ne 1) (by rw [hpc]; rfl) rfl
  have hback : Cond.ne.passes t.z = true := by simp [Cond.passes, hz]
  rw [if_pos hback]
  exact lockReturns_one rfl hfree

theorem lockReturns_after_store (hpc : t.pc = 5) (hfree : s.mem (t.r 0) = 0#32) : LockReturns k 9 s t := by
  by_cases hdone : t.z = true ∧ t.r 1 = 0#32
  · exact (lockReturns_five hpc hdone.1 hdone.2).mono (by decide)
  · apply LockReturns.step (i := .cmp .eq 1 0) (by rw [hpc]; rfl) rfl
    cases hz : t.z with
    | true =>
      have hne : ¬ t.r 1 = 0#32 := fun hr => hdone ⟨hz, hr⟩
      apply lockReturns_retry
      · simp [hpc, Cond.passes]
      · simp [hne, Cond.passes]
      · simpa [Cond.passes] using hfree
    | false =>
      apply lockReturns_retry
      · simp [hpc, Cond.passes]
      · simp [hz, Cond.passes]
      · simpa [Cond.passes] using hfree

theorem lockReturns_before_store (hpc : t.pc = 4) (hfree : s.mem (t.r 0) = 0#32) : LockReturns k 10 s t := by
  by_cases hdone : t.z = true ∧ s.tag k = some (t.r 0)
  · exact (lockReturns_four hpc hdone.1 hdone.2).mono (by decide)
  · cases hz : t.z with
    | true =>
      have hne : ¬ s.tag k = some (t.r 0) := fun htag => hdone ⟨hz, htag⟩
      have hrun : (Instr.strex .eq 1 2 0).exec k s t = some (s.setTag k none, t.set 1 1) := by
        simp [Instr.exec, Cond.passes, hz, hne]
      apply LockReturns.step (by rw [hpc]; rfl) hrun
      exact lockReturns_after_store (by simp [hpc]) (by simpa [Cluster.setTag] using hfree)
    | false =>
      have hrun : (Instr.strex .eq 1 2 0).exec k s t = some (s, t.next) := by
        simp [Instr.exec, Cond.passes, hz]
      apply LockReturns.step (by rw [hpc]; rfl) hrun
      exact lockReturns_after_store (by simp [hpc]) hfree

/-- A core that found the lock held needs an event here. -/
theorem lockReturns_waiting (hpc : t.pc = 3) (hfree : s.mem (t.r 0) = 0#32)
    (hevent : t.z = false → s.event k = true) : LockReturns k 11 s t := by
  cases hz : t.z with
  | true =>
    have hrun : (Instr.wfe .ne).exec k s t = some (s, t.next) := by
      simp [Instr.exec, Cond.passes, hz]
    apply LockReturns.step (by rw [hpc]; rfl) hrun
    exact lockReturns_before_store (by simp [hpc]) hfree
  | false =>
    have hrun : (Instr.wfe .ne).exec k s t = some (s.setEvent k false, t.next) := by
      simp [Instr.exec, Cond.passes, hz, hevent hz]
    apply LockReturns.step (by rw [hpc]; rfl) hrun
    exact lockReturns_before_store (by simp [hpc]) hfree

theorem lockReturns_loaded (hpc : t.pc = 2) (hfree : s.mem (t.r 0) = 0#32)
    (hevent : t.r 1 ≠ 0 → s.event k = true) : LockReturns k 12 s t := by
  apply LockReturns.step (i := .cmp .al 1 spinlockUnlock) (by rw [hpc]; rfl) rfl
  apply lockReturns_waiting
  · simp [hpc, Cond.passes]
  · simpa [Cond.passes] using hfree
  · intro hz
    apply hevent
    simpa [Cond.passes, spinlockUnlock] using hz

theorem lockReturns_start (hpc : t.pc = 0) (hfree : s.mem (t.r 0) = 0#32) : LockReturns k 8 s t := by
  apply LockReturns.step (i := .mov 2 spinlockLock) (by rw [hpc]; rfl) rfl
  exact lockReturns_one (by simp [hpc]) (by simpa using hfree)

theorem lockReturns_of_shows {a : AtomicLock κ} (h : a.Shows lock m) (hw : m.Woken lock)
    (hat : m.core k = .code .lock t) (hfree : m.cluster.mem lock = spinlockUnlock) (hsent : ¬ m.Sending) :
    LockReturns k 12 m.cluster t := by
  have hfit := h.core k
  rw [hat] at hfit
  have hevent : (t.pc = 2 ∨ t.pc = 3) → t.r 1 ≠ 0 → m.cluster.event k = true := by
    intro hpc hne
    by_contra hnone
    rcases hw k t hat hpc hne (Bool.eq_false_iff.mpr hnone) with hmem | hsending
    · exact hmem hfree
    · exact hsent hsending
  simp only [SpinCore.Fits] at hfit
  generalize hpc : t.pc = n at hfit
  have hword : t.r 0 = lock → m.cluster.mem (t.r 0) = 0#32 := by
    intro hlock
    rw [hlock]
    exact hfree
  rcases n with _ | _ | _ | _ | _ | _ | _ | _ | _ | n
  · exact (lockReturns_start hpc (hword hfit.1)).mono (by decide)
  · exact (lockReturns_one hpc (hword hfit.1)).mono (by decide)
  · exact lockReturns_loaded hpc (hword hfit.1) (hevent (.inl hpc))
  · refine (lockReturns_waiting hpc (hword hfit.1) fun hz => hevent (.inr hpc) ?_).mono (by decide)
    have hne := hfit.2.2.2.1
    rw [hz] at hne
    exact beq_eq_false_iff_ne.mp hne.symm
  · exact (lockReturns_before_store hpc (hword hfit.1)).mono (by decide)
  · exact (lockReturns_after_store hpc (hword hfit.1)).mono (by decide)
  · cases hz : t.z with
    | true => exact (lockReturns_six hpc hz).mono (by decide)
    | false => exact (lockReturns_retry hpc hz (hword hfit.1)).mono (by decide)
  · exact (lockReturns_seven hpc).mono (by decide)
  · exact ⟨0, Nat.zero_le 12, m.cluster, t, rfl, by rw [hpc]; rfl⟩
  · exact absurd hfit id

end Progress

/-! ## Main results -/

/-- The lock is free, and no core is in its routines. -/
def SpinCores.Idle (lock : Word) (m : SpinCores κ) : Prop :=
  m.cluster.mem lock = spinlockUnlock ∧ ∀ k, m.core k = .out

section Results

variable {lock : Word} {m m' : SpinCores κ} {es : List (Option (SpinEvent κ))} {k : κ} {f : SpinCall}
  {t : CoreRegs} {i : Instr}

omit [DecidableEq κ] in
theorem SpinCores.Idle.shows (h : m.Idle lock) :
    (⟨false, fun _ => .out⟩ : AtomicLock κ).Shows lock m := by
  constructor
  · exact h.1
  · intro k
    rw [h.2 k]
    rfl

omit [DecidableEq κ] in
theorem SpinCores.Idle.woken (h : m.Idle lock) : m.Woken lock := by
  intro k t hk
  rw [h.2 k] at hk
  cases hk

omit [DecidableEq κ] in
theorem fetch_wfe {c : Cond} (h : f.routine[t.pc]? = some (.wfe c)) : f = .lock ∧ t.pc = 3 ∧ c = .ne := by
  generalize t.pc = n at h ⊢
  cases f with
  | lock =>
    unfold SpinCall.routine Spin.cpuSpinLock at h
    rcases n with _ | _ | _ | _ | _ | _ | _ | _ | _ | n
    case succ.succ.succ.zero =>
      cases h
      exact ⟨rfl, rfl, rfl⟩
    all_goals cases h
  | trylock =>
    unfold SpinCall.routine Spin.cpuSpinTrylock at h
    rcases n with _ | _ | _ | _ | _ | _ | _ | _ | _ | _ | _ | _ | _ | n <;> cases h
  | unlock =>
    unfold SpinCall.routine Spin.cpuSpinUnlock at h
    rcases n with _ | _ | _ | _ | _ | _ | n <;> cases h

theorem woken_steps {a : AtomicLock κ} (h : a.Shows lock m) (hw : m.Woken lock)
    (hrun : Steps (SpinStep lock) m es m') : m'.Woken lock := by
  induction hrun generalizing a with
  | nil m => exact hw
  | cons first rest ih =>
    obtain ⟨a₁, -, h₁⟩ := shows_step h first
    exact ih h₁ (woken_step h hw first)

end Results

end Cores

/-- Four cores with a free lock at `0x100`. -/
def spinIdle : SpinCores (Fin 4) := ⟨⟨fun _ => 0, fun _ => none, fun _ => false⟩, fun _ => .out⟩

theorem spinIdle_idle : spinIdle.Idle 0x100 := ⟨rfl, fun _ => rfl⟩

/-- The registers of a core that calls a routine for this lock. -/
def spinRegs : CoreRegs := ⟨fun n => if n = 0 then 0x100 else 0, false, 0⟩

/-- The shared state and the registers of core `k` after `n` instructions of a routine. -/
def spinAfter (k : Fin 4) (f : SpinCall) (n : Nat) (x : Cluster (Fin 4) × CoreRegs) :
    Cluster (Fin 4) × CoreRegs := (runFor k f.routine n x).getD x

/-! Core 0 takes the lock, core 1 finds it held and comes to its `wfe`, core 0 unlocks, and core 1 takes
the lock. -/
def spinTaken : Cluster (Fin 4) × CoreRegs := spinAfter 0 .lock 8 (spinIdle.cluster, spinRegs)
def spinWaits : Cluster (Fin 4) × CoreRegs := spinAfter 1 .lock 3 (spinTaken.1, spinRegs)
def spinFreed : Cluster (Fin 4) × CoreRegs := spinAfter 0 .unlock 5 (spinWaits.1, spinRegs)
def spinPassed : Cluster (Fin 4) × CoreRegs := spinAfter 1 .lock 11 (spinFreed.1, spinWaits.2)

/-- Core 1 while it waits, and when it has been sent an event. -/
def spinWaiting : SpinCores (Fin 4) := spinIdle.move 1 spinWaits.1 (.code .lock spinWaits.2)
def spinSent : SpinCores (Fin 4) := spinIdle.move 1 spinFreed.1 (.code .lock spinWaits.2)

section Runs

variable {κ : Type} [DecidableEq κ] {lock : Word} {m : SpinCores κ} {k : κ} {f : SpinCall} {n : Nat}
  {s : Cluster κ} {t t' : CoreRegs}

/-- A call and its first `n` instructions. -/
theorem steps_call (hat : m.core k = .out) (hr : t.r 0 = lock) (hpc : t.pc = 0)
    (hrun : runFor k f.routine n (m.cluster, t) = some (s, t')) :
    Steps (SpinStep lock) m (some (.call k f) :: List.replicate n none) (m.move k s (.code f t')) := by
  have hcalled : (m.move k m.cluster (.code f t)).core k = .code f t := by
    simp [SpinCores.move]
  have hmove : (m.move k m.cluster (.code f t)).move k s (.code f t') = m.move k s (.code f t') := by
    simp [SpinCores.move]
  rw [← hmove]
  exact .cons (.call hat hr hpc) (steps_of_runFor hcalled hrun)

/-- The return of a call. -/
theorem steps_ret {ok : Bool} (hret : f.routine[t.pc]? = some .ret) (hok : f.ok (t.r 0) = ok) :
    Steps (SpinStep lock) (m.move k s (.code f t)) [some (.ret k f ok)] (m.move k s .out) := by
  have hat : (m.move k s (.code f t)).core k = .code f t := by
    simp [SpinCores.move]
  have hmove : (m.move k s (.code f t)).move k s .out = m.move k s .out := by
    simp [SpinCores.move]
  rw [← hok, ← hmove]
  exact .cons (.ret hat hret) (.nil _)

end Runs

/-- The log until core 1 waits. -/
def spinWaitingLog : List (Option (SpinEvent (Fin 4))) :=
  some (.call 0 .lock) :: List.replicate 8 none ++ [some (.ret 0 .lock true)] ++
    some (.call 1 .lock) :: List.replicate 3 none

/-- The log until core 1 is sent its event. -/
def spinSentLog : List (Option (SpinEvent (Fin 4))) :=
  spinWaitingLog ++ (some (.call 0 .unlock) :: List.replicate 5 none ++ [some (.ret 0 .unlock true)])

theorem steps_waiting : Steps (SpinStep 0x100) spinIdle spinWaitingLog spinWaiting := by
  have htaken : Steps (SpinStep 0x100) spinIdle
      (some (.call 0 .lock) :: List.replicate 8 none ++ [some (.ret 0 .lock true)])
      (spinIdle.move 0 spinTaken.1 .out) :=
    steps_append.mpr ⟨_, steps_call (t := spinRegs) rfl rfl rfl rfl, steps_ret rfl rfl⟩
  have hwaits : Steps (SpinStep 0x100) (spinIdle.move 0 spinTaken.1 .out)
      (some (.call 1 .lock) :: List.replicate 3 none)
      ((spinIdle.move 0 spinTaken.1 .out).move 1 spinWaits.1 (.code .lock spinWaits.2)) :=
    steps_call (t := spinRegs) rfl rfl rfl rfl
  have hmove : (spinIdle.move 0 spinTaken.1 .out).move 1 spinWaits.1 (.code .lock spinWaits.2) =
      spinWaiting := by
    simp [SpinCores.move, spinIdle, spinWaiting]
  rw [hmove] at hwaits
  exact steps_append.mpr ⟨_, htaken, hwaits⟩

theorem steps_sent : Steps (SpinStep 0x100) spinIdle spinSentLog spinSent := by
  have hfreed : Steps (SpinStep 0x100) spinWaiting
      (some (.call 0 .unlock) :: List.replicate 5 none ++ [some (.ret 0 .unlock true)])
      (spinWaiting.move 0 spinFreed.1 .out) :=
    steps_append.mpr ⟨_, steps_call (t := spinRegs) rfl rfl rfl rfl, steps_ret rfl rfl⟩
  have hmove : spinWaiting.move 0 spinFreed.1 .out = spinSent := by
    have hout : spinWaiting.core 0 = .out := rfl
    have hupdate : Function.update spinWaiting.core 0 .out = spinWaiting.core := by
      rw [← hout, Function.update_eq_self]
    rw [SpinCores.move, hupdate]
    rfl
  rw [hmove] at hfreed
  exact steps_append.mpr ⟨_, steps_waiting, hfreed⟩

/-- Core 1 has got the lock. -/
theorem steps_passed : Steps (SpinStep 0x100) spinIdle
    (spinSentLog ++ (List.replicate 11 none ++ [some (.ret 1 .lock true)]))
    (spinSent.move 1 spinPassed.1 .out) :=
  steps_append.mpr ⟨_, steps_sent, steps_append.mpr
    ⟨_, steps_of_runFor (f := .lock) (t := spinWaits.2) rfl rfl, steps_ret rfl rfl⟩⟩

section Results

variable {κ : Type} [DecidableEq κ] {lock : Word} {m m' : SpinCores κ} {es : List (Option (SpinEvent κ))}
  {k : κ} {t : CoreRegs}

/-- Whatever the cores do, every call takes effect at once, at an instruction between its start and its
return: `__cpu_spin_trylock` returns 0 exactly if it took the lock, and fails only while it is held. -/
theorem spin_linearizable (h : m.Idle lock) (hrun : Steps (SpinStep lock) m es m') :
    ∃ es' a, Steps AtomicStep (⟨false, fun _ => .out⟩ : AtomicLock κ) es' a ∧
      es'.reduceOption = es.reduceOption ∧ m'.cluster.mem lock = lockWord a.held := by
  obtain ⟨es', a, hsteps, hevents, hshows⟩ := shows_steps h.shows hrun
  exact ⟨es', a, hsteps, hevents, hshows.word⟩

/-- The run of two cores, with the instructions at which their calls take effect. -/
theorem spin_linearizable_passed : ∃ (es' : List (Option (SpinEvent (Fin 4)))) (a : AtomicLock (Fin 4)),
    Steps AtomicStep ⟨false, fun _ => .out⟩ es' a ∧
      es'.reduceOption = [.call 0 .lock, .ret 0 .lock true, .call 1 .lock, .call 0 .unlock,
        .ret 0 .unlock true, .ret 1 .lock true] ∧
      (spinSent.move 1 spinPassed.1 .out).cluster.mem 0x100 = lockWord a.held :=
  spin_linearizable spinIdle_idle steps_passed

/-- If only a core that has the lock unlocks it, then at most one core has it at any time, and the lock
shows that it is held. -/
theorem spin_exclusive (h : m.Idle lock) (hrun : Steps (SpinStep lock) m es m')
    (hpolite : PoliteSpins (fun _ => false) es.reduceOption) :
    (∀ j k, hasLock j es.reduceOption false = true → hasLock k es.reduceOption false = true → j = k) ∧
      ∀ k, hasLock k es.reduceOption false = true → m'.cluster.mem lock = spinlockLock := by
  obtain ⟨es', a, hsteps, hevents, hshows⟩ := shows_steps h.shows hrun
  rw [← hevents] at hpolite ⊢
  have howned := owned_steps owned_start hpolite hsteps
  constructor
  · intro j k hj hk
    exact howned.unique j k (.inl hj) (.inl hk)
  · intro k hk
    have hheld := howned.held.mpr ⟨k, .inl hk⟩
    rw [hshows.word, hheld]
    rfl

/-- Core 1 has it, after core 0 had it. -/
theorem spin_exclusive_passed : ∃ es : List (SpinEvent (Fin 4)),
    es = [.call 0 .lock, .ret 0 .lock true, .call 1 .lock, .call 0 .unlock, .ret 0 .unlock true,
      .ret 1 .lock true] ∧
    hasLock 1 es false = true ∧ (∀ j k, hasLock j es false = true → hasLock k es false = true → j = k) ∧
      ∀ k, hasLock k es false = true →
        (spinSent.move 1 spinPassed.1 .out).cluster.mem 0x100 = spinlockLock := by
  refine ⟨_, rfl, rfl, spin_exclusive spinIdle_idle steps_passed ?_⟩
  refine ⟨?_, ?_, ?_, ?_, ?_, ?_, trivial⟩
  case refine_4 => exact fun k hk => by cases hk; rfl
  all_goals exact fun k hk => by cases hk

/-- The core is in a routine, and can neither execute an instruction of it nor return. -/
def SpinCores.Stuck (m : SpinCores κ) (k : κ) : Prop :=
  ∃ f t, m.core k = .code f t ∧ f.routine[t.pc]? ≠ some .ret ∧
    ∀ i, f.routine[t.pc]? = some i → i.exec k m.cluster t = none

/-- A core that can go no further is asleep in the `wfe` of `__cpu_spin_lock`, and it is sent an event when
the lock is free. -/
theorem spin_woken (h : m.Idle lock) (hrun : Steps (SpinStep lock) m es m') (hstuck : m'.Stuck k) :
    (∃ t, m'.core k = .code .lock t ∧ Spin.cpuSpinLock[t.pc]? = some (.wfe .ne) ∧ t.z = false ∧
      m'.cluster.event k = false) ∧ (m'.cluster.mem lock = spinlockLock ∨ m'.Sending) := by
  obtain ⟨f, t, hat, hret, hwait⟩ := hstuck
  obtain ⟨-, a, -, -, hshows⟩ := shows_steps h.shows hrun
  have hfit := hshows.core k
  rw [hat] at hfit
  obtain ⟨i, hfetch⟩ := Option.ne_none_iff_exists'.mp (fits_fetch hfit)
  obtain rfl | ⟨c, rfl, hpass, hevent⟩ := exec_eq_none.mp (hwait i hfetch)
  · exact absurd hfetch hret
  obtain ⟨rfl, hpc, rfl⟩ := fetch_wfe hfetch
  have hz : t.z = false := by simpa [Cond.passes] using hpass
  refine ⟨⟨t, hat, hfetch, hz, hevent⟩, ?_⟩
  simp only [SpinCore.Fits] at hfit
  rw [hpc] at hfit
  have hne : t.r 1 ≠ 0 := by
    intro hr
    have hloaded := hfit.2.2.2.1
    rw [hr, hz] at hloaded
    cases hloaded
  rcases woken_steps h.shows h.woken hrun k t hat (.inr hpc) hne hevent with hmem | hsending
  · left
    rw [hshows.word] at hmem ⊢
    cases hheld : a.held with
    | true => rfl
    | false =>
      rw [hheld] at hmem
      exact absurd rfl hmem
  · exact .inr hsending

/-- Core 1 waits, as core 0 has the lock. -/
theorem spin_woken_waiting : (∃ t, spinWaiting.core 1 = .code .lock t ∧
    Spin.cpuSpinLock[t.pc]? = some (.wfe .ne) ∧ t.z = false ∧ spinWaiting.cluster.event 1 = false) ∧
      (spinWaiting.cluster.mem 0x100 = spinlockLock ∨ spinWaiting.Sending) := by
  refine spin_woken spinIdle_idle steps_waiting ⟨.lock, spinWaits.2, rfl, ?_, fun i hi => ?_⟩
  · intro hret
    cases hret
  · cases hi
    rfl

/-- A core in `__cpu_spin_lock` whose instructions are the only ones executed, with the lock free and no
event under way, is at its return after at most 12 of them, and has the lock. -/
theorem spin_acquires (h : m.Idle lock) (hrun : Steps (SpinStep lock) m es m')
    (hat : m'.core k = .code .lock t) (hfree : m'.cluster.mem lock = spinlockUnlock)
    (hsent : ¬ m'.Sending) : ∃ n ≤ 12, ∃ s t', runFor k Spin.cpuSpinLock n (m'.cluster, t) = some (s, t') ∧
      Steps (SpinStep lock) m' (List.replicate n none) (m'.move k s (.code .lock t')) ∧
      SpinStep lock (m'.move k s (.code .lock t')) (some (.ret k .lock true)) (m'.move k s .out) := by
  obtain ⟨-, a, -, -, hshows⟩ := shows_steps h.shows hrun
  obtain ⟨n, hn, s, t', halone, hret⟩ :=
    lockReturns_of_shows hshows (woken_steps h.shows h.woken hrun) hat hfree hsent
  refine ⟨n, hn, s, t', halone, steps_of_runFor hat halone, ?_⟩
  have hmove : (m'.move k s (.code .lock t')).move k s .out = m'.move k s .out := by
    simp [SpinCores.move]
  rw [← hmove]
  refine .ret ?_ hret
  simp [SpinCores.move]

/-- Core 1 was asleep and has been sent its event. -/
theorem spin_acquires_sent : ∃ n ≤ 12, ∃ s t',
    runFor 1 Spin.cpuSpinLock n (spinSent.cluster, spinWaits.2) = some (s, t') ∧
      Steps (SpinStep 0x100) spinSent (List.replicate n none) (spinSent.move 1 s (.code .lock t')) ∧
      SpinStep 0x100 (spinSent.move 1 s (.code .lock t')) (some (.ret 1 .lock true))
        (spinSent.move 1 s .out) := by
  refine spin_acquires spinIdle_idle steps_sent rfl rfl ?_
  rintro ⟨j, t, hj, -⟩
  by_cases hone : j = 1
  · simp [spinSent, SpinCores.move, hone] at hj
  · simp [spinSent, SpinCores.move, hone, spinIdle] at hj

end Results

end SeCloak
