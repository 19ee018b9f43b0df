import SeCloak.Misc.Steps
import SeCloak.Monitor.Routines

/-!
# Two worlds

What the monitor is for: each world has registers of its own, and goes on with them where it left off.
-/

namespace SeCloak
open Misc

/-- The registers of a world, as the monitor keeps them. -/
structure Context where
  banks : SmModeRegs
  r : Fin 13 → Word
  pc : Word
  cpsr : Word

/-- `struct sm_nsec_ctx` at the context of the normal world. -/
def Context.load (m : Words) (ctx : Word) : Context where
  banks := .load m (wordAt ctx 34)
  r i := if i.val < 8 then m (wordAt ctx (57 + i.val)) else m (wordAt ctx (51 + (i.val - 8)))
  pc := m (wordAt ctx 65)
  cpsr := m (wordAt ctx 66)

def Cpu.context (c : Cpu) : Context := ⟨c.banks, fun i => c.r i.val, c.pc, c.cpsr⟩

/-- The results of a call in `r0` to `r3`, unless the call ends an FIQ. -/
def Context.results (n k : Context) : Context :=
  if k.r 0 = returnFiqDone then n
  else { n with r := fun i => if h : i.val < 4 then k.r ⟨i.val + 1, by omega⟩ else n.r i }

inductive Worlds where
  | normal (n : Context) (banks : SmModeRegs) (psr : Word)
  | secure (n k : Context)

def Worlds.Holds (ctx : Word) : Worlds → Cpu → Prop
  | .normal n b psr, c => c.scr &&& Cpu.scrNsFiqEa = Cpu.scrNsFiqEa ∧ c.monSp = wordAt ctx 67 ∧
      c.context = n ∧ SmModeRegs.load c.mem (wordAt ctx 1) = b ∧ c.mem (wordAt ctx 33) = psr
  | .secure n k, c => c.scr &&& Cpu.scrNsFiqEa = 0 ∧ c.monSp = wordAt ctx 34 ∧ c.context = k ∧
      Context.load c.mem ctx = n

theorem Context.load_eq {m : Words} {ctx pc cpsr : Word} {b : SmModeRegs} {r : Nat → Word}
    (hbanks : m.get (wordAt ctx 34) 17 = b.words)
    (hhigh : m.get (wordAt ctx 51) 5 = (List.range' 8 5).map r)
    (hlow : m.get (wordAt ctx 57) 8 = (List.range' 0 8).map r)
    (hstate : m.get (wordAt ctx 65) 2 = [pc, cpsr]) :
    Context.load m ctx = ⟨b, fun i => r i.val, pc, cpsr⟩ := by
  unfold Context.load
  rw [SmModeRegs.load_of_get hbanks]
  have hpc := Words.apply_of_get (i := 0) hstate rfl
  have hcpsr := Words.apply_of_get (i := 1) hstate rfl
  rw [Words.wordAt_wordAt] at hpc hcpsr
  rw [hpc, hcpsr]
  congr 1
  funext i
  split
  · rw [← Words.wordAt_wordAt]
    refine Words.apply_of_get hlow ?_
    simp [*]
  · rw [← Words.wordAt_wordAt]
    refine Words.apply_of_get hhigh ?_
    have := i.isLt
    rw [List.getElem?_map, List.getElem?_range' (by omega)]
    simp
    congr 1
    omega

section Memory

variable {m : Words} {ctx entry : Word} {low high modes state stack : List Word}

/-- The memory after a call: the normal world's context is saved, and its `r0` to `r7` are passed on
with the entry. -/
def calledMem (m : Words) (ctx : Word) (low high modes state : List Word) (entry : Word)
    (stack : List Word) : Words :=
  ((((((m.put (wordAt ctx 65) state).put (wordAt ctx 57) low).put (wordAt ctx 51) high).put
    (wordAt ctx 34) modes).put (wordAt ctx 24) low).put (wordAt ctx 32) [entry]).put
    (ctx - BitVec.ofNat 32 (4 * stack.length)) stack

theorem calledMem_get (hstate : state.length = 2) (hlow : low.length = 8)
    (hhigh : high.length = 5) (hmodes : modes.length = 17) (hstack : stack.length ≤ 384) :
    (calledMem m ctx low high modes state entry stack).get (wordAt ctx 34) 17 = modes ∧
    (calledMem m ctx low high modes state entry stack).get (wordAt ctx 51) 5 = high ∧
    (calledMem m ctx low high modes state entry stack).get (wordAt ctx 57) 8 = low ∧
    (calledMem m ctx low high modes state entry stack).get (wordAt ctx 65) 2 = state ∧
    (calledMem m ctx low high modes state entry stack).get (wordAt ctx 24) 8 = low ∧
    calledMem m ctx low high modes state entry stack (wordAt ctx 32) = entry ∧
    calledMem m ctx low high modes state entry stack (wordAt ctx 33) = m (wordAt ctx 33) := by
  unfold calledMem
  have hs : stack.length ≤ 2 ^ 29 := by omega
  refine ⟨?_, ?_, ?_, ?_, ?_, Words.apply_eq ?_, Words.apply_eq ?_⟩ <;>
    rw [Words.get_put_below hs (by omega)]
  · simp [Words.get_put_apart, Words.get_put, hlow, hmodes]
  · simp [Words.get_put_apart, Words.get_put, hlow, hhigh, hmodes]
  · simp [Words.get_put_apart, Words.get_put, hlow, hhigh, hmodes]
  · simp [Words.get_put_apart, Words.get_put, hstate, hlow, hhigh, hmodes]
  · simp [Words.get_put_apart, Words.get_put, hlow]
  · exact Words.get_put (by simp) rfl
  · rw [← Words.get_one]
    simp [Words.get_put_apart, hstate, hlow, hhigh, hmodes]

theorem saved_sec (hstate : state.length = 2) (hlow : low.length = 8) (hhigh : high.length = 5)
    (hmodes : modes.length = 17) :
    ((((m.put (wordAt ctx 65) state).put (wordAt ctx 57) low).put (wordAt ctx 51) high).put
      (wordAt ctx 34) modes).get (wordAt ctx 1) 17 = m.get (wordAt ctx 1) 17 := by
  simp [Words.get_put_apart, hstate, hlow, hhigh, hmodes]

theorem map_range_getElem? {r : Nat → Word} {k n j : Nat} (h : k ≤ j ∧ j < k + n) :
    ((List.range' k n).map r)[j - k]? = some (r j) := by
  rw [List.getElem?_map, List.getElem?_range' (by omega)]
  simp only [Option.map_some, Nat.one_mul, Nat.add_sub_cancel' h.1]

/-- The memory after the secure world left: its context is saved. -/
def leftMem (m : Words) (ctx : Word) (low modes : List Word) (ret psr : Word) : Words :=
  ((m.put (wordAt ctx 32) [ret, psr]).put (wordAt ctx 24) low).put (wordAt ctx 1) modes

theorem leftMem_get {ret psr : Word} (hlow : low.length = 8) (hmodes : modes.length = 17) :
    (leftMem m ctx low modes ret psr).get (wordAt ctx 24) 8 = low ∧
    (leftMem m ctx low modes ret psr).get (wordAt ctx 1) 17 = modes ∧
    leftMem m ctx low modes ret psr (wordAt ctx 33) = psr ∧
    (∀ j n, 34 ≤ j → j + n ≤ 67 →
      (leftMem m ctx low modes ret psr).get (wordAt ctx j) n = m.get (wordAt ctx j) n) := by
  unfold leftMem
  refine ⟨?_, ?_, ?_, fun j n hj hn => ?_⟩
  · simp [Words.get_put_apart, Words.get_put, hlow, hmodes]
  · exact Words.get_put (by omega) hmodes
  · rw [Words.put_apart (by omega) (by decide) (by decide) (by omega),
      Words.put_apart (by omega) (by decide) (by decide) (by omega)]
    have hget : (m.put (wordAt ctx 32) [ret, psr]).get (wordAt ctx 32) 2 = [ret, psr] :=
      Words.get_put (by simp) rfl
    have h := Words.apply_of_get (i := 1) hget rfl
    rwa [Words.wordAt_wordAt] at h
  · rw [Words.get_put_apart (by omega) (by omega) (by decide) (by omega),
      Words.get_put_apart (by omega) (by omega) (by decide) (by omega),
      Words.get_put_apart (by simp) (by omega) (by decide) (by simp; omega)]

theorem resultsIn_apart {j n : Nat} (hn : j + n ≤ 67) (h : j + n ≤ 57 ∨ 61 ≤ j) :
    (Cpu.resultsIn m ctx).get (wordAt ctx j) n = m.get (wordAt ctx j) n := by
  unfold Cpu.resultsIn
  split
  · rfl
  · exact Words.get_put_apart (by simp) (by omega) (by decide) (by simpa using h)

/-- The context of the normal world with the results. -/
theorem load_resultsIn {r : Nat → Word} {k : Context} (hlow : m.get (wordAt ctx 24) 8 = (List.range' 0 8).map r)
    (hk : ∀ i : Fin 13, k.r i = r i.val) :
    Context.load (Cpu.resultsIn m ctx) ctx = (Context.load m ctx).results k := by
  have hpassed : ∀ i, i < 8 → m (wordAt ctx (24 + i)) = r i := by
    intro i hi
    rw [← Words.wordAt_wordAt]
    exact Words.apply_of_get hlow (map_range_getElem? (k := 0) (by omega))
  have h0 : m (wordAt ctx 24) = k.r 0 := (hpassed 0 (by decide)).trans (hk 0).symm
  unfold Context.results
  by_cases hf : k.r 0 = returnFiqDone
  · rw [if_pos hf, Cpu.resultsIn, if_pos (h0.trans hf)]
  · have hres : Cpu.resultsIn m ctx = m.put (wordAt ctx 57) [r 1, r 2, r 3, r 4] := by
      rw [Cpu.resultsIn, if_neg (fun h => hf (h0.symm.trans h))]
      have h1 := hpassed 1 (by decide)
      have h2 := hpassed 2 (by decide)
      have h3 := hpassed 3 (by decide)
      have h4 := hpassed 4 (by decide)
      rw [h1, h2, h3, h4]
    have hkept : ∀ j, j < 67 → j < 57 ∨ 61 ≤ j →
        m.put (wordAt ctx 57) [r 1, r 2, r 3, r 4] (wordAt ctx j) = m (wordAt ctx j) :=
      fun j hj h => Words.put_apart (by simp) (by omega) (by decide) (by simpa using h)
    have hput : ∀ i, i < 4 → m.put (wordAt ctx 57) [r 1, r 2, r 3, r 4] (wordAt ctx (57 + i)) = r (i + 1) := by
      intro i hi
      rw [Words.put_apply (by simp) (by omega) (by decide), if_pos (by omega), Nat.add_sub_cancel_left]
      match i, hi with
      | 0, _ => rfl
      | 1, _ => rfl
      | 2, _ => rfl
      | 3, _ => rfl
    have hbanks : SmModeRegs.load (m.put (wordAt ctx 57) [r 1, r 2, r 3, r 4]) (wordAt ctx 34) =
        SmModeRegs.load m (wordAt ctx 34) :=
      SmModeRegs.load_of_get (Words.get_put_apart (by simp) (by decide) (by decide) (by simp))
    rw [if_neg hf, hres]
    unfold Context.load
    rw [hbanks, hkept 65 (by decide) (by decide), hkept 66 (by decide) (by decide)]
    congr 1
    funext i
    have hi := i.isLt
    dsimp only
    by_cases h4 : i.val < 4
    · rw [dif_pos h4, if_pos (by omega), hput i.val h4, hk]
    · rw [dif_neg h4]
      split
      · exact hkept (57 + i.val) (by omega) (by omega)
      · exact hkept (51 + (i.val - 8)) (by omega) (by omega)

/-- The memory after an FIQ: the normal world's context is saved, and the entry is set. -/
def fiqMem (m : Words) (ctx : Word) (low high modes state : List Word) (entry : Word) : Words :=
  ((((m.put (wordAt ctx 65) state).put (wordAt ctx 57) low).put (wordAt ctx 34) modes).put
    (wordAt ctx 51) high).put (wordAt ctx 32) [entry]

theorem fiqMem_get (hstate : state.length = 2) (hlow : low.length = 8) (hhigh : high.length = 5)
    (hmodes : modes.length = 17) :
    (fiqMem m ctx low high modes state entry).get (wordAt ctx 34) 17 = modes ∧
    (fiqMem m ctx low high modes state entry).get (wordAt ctx 51) 5 = high ∧
    (fiqMem m ctx low high modes state entry).get (wordAt ctx 57) 8 = low ∧
    (fiqMem m ctx low high modes state entry).get (wordAt ctx 65) 2 = state ∧
    (fiqMem m ctx low high modes state entry).get (wordAt ctx 1) 17 = m.get (wordAt ctx 1) 17 ∧
    fiqMem m ctx low high modes state entry (wordAt ctx 33) = m (wordAt ctx 33) := by
  unfold fiqMem
  refine ⟨?_, ?_, ?_, ?_, ?_, Words.apply_eq ?_⟩
  · simp [Words.get_put_apart, Words.get_put, hhigh, hmodes]
  · simp [Words.get_put_apart, Words.get_put, hhigh]
  · simp [Words.get_put_apart, Words.get_put, hlow, hhigh, hmodes]
  · simp [Words.get_put_apart, Words.get_put, hstate, hlow, hhigh, hmodes]
  · simp [Words.get_put_apart, hstate, hlow, hhigh, hmodes]
  · rw [← Words.get_one]
    simp [Words.get_put_apart, hstate, hlow, hhigh, hmodes]

end Memory

/-- The context is loaded from words that did not change. -/
theorem Context.load_congr {m m' : Words} {ctx : Word} {n : Context} (h : Context.load m ctx = n)
    (hbanks : m'.get (wordAt ctx 34) 17 = m.get (wordAt ctx 34) 17)
    (hrest : ∀ j, 51 ≤ j → j < 67 → m' (wordAt ctx j) = m (wordAt ctx j)) : Context.load m' ctx = n := by
  rw [← h]
  unfold Context.load
  rw [SmModeRegs.load_of_get (b := .load m (wordAt ctx 34)) hbanks, hrest 65 (by decide) (by decide), hrest 66 (by decide) (by decide)]
  congr 1
  funext i
  have hi := i.isLt
  split
  · exact hrest _ (by omega) (by omega)
  · exact hrest _ (by omega) (by omega)

/-! ## Calls -/

theorem scr_ns {scr : Word} (h : scr &&& Cpu.scrNsFiqEa = Cpu.scrNsFiqEa) : scr &&& 1 ≠ 0 := by
  have hns : scr &&& 1 = (scr &&& Cpu.scrNsFiqEa) &&& 1 := by
    rw [BitVec.and_assoc]
    rfl
  rw [hns, h]
  decide

theorem scr_sec {scr : Word} (h : scr &&& Cpu.scrNsFiqEa = 0) : scr &&& 1 = 0 := by
  have hns : scr &&& 1 = (scr &&& Cpu.scrNsFiqEa) &&& 1 := by
    rw [BitVec.and_assoc]
    rfl
  rw [hns, h]
  decide

namespace Cpu

variable {c : Cpu} {ctx vectors ret : Word} {x : Scratch} {n k : Context} {b : SmModeRegs} {psr : Word}

theorem regs_high {v : Word} {r : Nat → Word} {i : Nat} (h : 8 ≤ i) :
    x.regs v r i = if i = 12 then x.r12 else r i := by
  by_cases hi : i = 12
  · rw [hi]
    rfl
  · rw [if_neg hi]
    unfold Scratch.regs
    split <;> first | omega | rfl

/-- A call from the normal world. -/
theorem smSmcEntry_normal (hscr : c.scr &&& scrNsFiqEa = scrNsFiqEa) (hsp : c.monSp = wordAt ctx 67) :
    smSmcEntry vectors x (c.take ret) =
      { c with
        r := fun i => if i = 12 then x.r12 else c.r i
        banks := .load c.mem (wordAt ctx 1)
        monSp := wordAt ctx 34
        monLr := ret
        monSpsr := c.cpsr
        pc := smcEntry vectors (c.r 0)
        cpsr := c.mem (wordAt ctx 33)
        scr := c.scr &&& ~~~scrNsFiqEa
        mem := calledMem c.mem ctx ((List.range' 0 8).map c.r) ((List.range' 8 5).map c.r)
          c.banks.words [ret, c.cpsr] (smcEntry vectors (c.r 0)) x.stack } := by
  let low := (List.range' 0 8).map c.r
  let high := (List.range' 8 5).map c.r
  let m := (c.mem.put (wordAt ctx 65) [ret, c.cpsr]).put (wordAt ctx 57) low
  let t : Cpu := { c.take ret with
    r := Function.update c.r 1 c.scr
    monSp := wordAt ctx 57
    mem := m }
  have hentered : smSmcEntry vectors x (c.take ret) = t.smcFromNsec vectors x := by
    unfold smSmcEntry
    rw [@entered_eq (c.take ret) ctx 57 (ofBits_withMode _ _) hsp]
    exact if_pos (scr_ns hscr)
  let m' := (m.put (wordAt ctx 51) high).put (wordAt ctx 34) c.banks.words
  let M := calledMem c.mem ctx low high c.banks.words [ret, c.cpsr] (smcEntry vectors (c.r 0)) x.stack
  have hlow : t.mem.get (wordAt ctx 57) 8 = low := Words.get_put (by simp [low]) rfl
  have hrun : t.smcFromNsec vectors x = { t with
      r := regsFrom M (wordAt ctx 24) 0 8 (x.regs 1 t.r)
      banks := .load m' (wordAt ctx 1)
      monSp := wordAt ctx 34
      pc := M (wordAt ctx 32)
      cpsr := M (wordAt ctx 33)
      scr := c.scr &&& ~~~scrNsFiqEa
      mem := M } := smcFromNsec_eq (ofBits_withMode _ _) rfl hlow
  obtain ⟨-, -, -, -, hpassed, hpc, hcpsr⟩ := @calledMem_get c.mem ctx (smcEntry vectors (c.r 0)) low high
    c.banks.words [ret, c.cpsr] x.stack rfl rfl rfl rfl x.fits
  change M.get (wordAt ctx 24) 8 = low at hpassed
  change M (wordAt ctx 32) = _ at hpc
  change M (wordAt ctx 33) = _ at hcpsr
  have hload : SmModeRegs.load m' (wordAt ctx 1) = SmModeRegs.load c.mem (wordAt ctx 1) :=
    SmModeRegs.load_of_get (saved_sec rfl rfl rfl rfl)
  have hregs : regsFrom M (wordAt ctx 24) 0 8 (x.regs 1 t.r) = fun i => if i = 12 then x.r12 else c.r i := by
    funext i
    unfold regsFrom
    by_cases hi : 0 ≤ i ∧ i < 0 + 8
    · rw [if_pos hi, if_neg (by omega)]
      exact Words.apply_of_get hpassed (map_range_getElem? hi)
    · rw [if_neg hi]
      have h8 : 8 ≤ i := by omega
      have ht : t.r i = c.r i := Function.update_of_ne (by omega) _ _
      rw [regs_high h8, ht]
  rw [hentered, hrun, hregs, hload, hpc, hcpsr]
  rfl

/-- A call or the end of an FIQ, from the secure world. -/
theorem smSmcEntry_secure (hscr : c.scr &&& scrNsFiqEa = 0) (hsp : c.monSp = wordAt ctx 34) :
    ∃ M : Words, smSmcEntry vectors x (c.take ret) =
      { c with
        r := regsFrom M (wordAt ctx 57) 0 8 (regsFrom M (wordAt ctx 51) 8 5 c.r)
        banks := .load M (wordAt ctx 34)
        monSp := wordAt ctx 67
        monLr := ret
        monSpsr := c.cpsr
        pc := M (wordAt ctx 65)
        cpsr := M (wordAt ctx 66)
        scr := c.scr ||| scrNsFiqEa
        mem := M } ∧ Context.load M ctx = (Context.load c.mem ctx).results c.context ∧
      SmModeRegs.load M (wordAt ctx 1) = c.banks ∧ M (wordAt ctx 33) = c.cpsr := by
  let low := (List.range' 0 8).map c.r
  let m := (c.mem.put (wordAt ctx 32) [ret, c.cpsr]).put (wordAt ctx 24) low
  let t : Cpu := { c.take ret with
    r := Function.update c.r 1 c.scr
    monSp := wordAt ctx 24
    mem := m }
  have hentered : smSmcEntry vectors x (c.take ret) = t.smcFromSec := by
    unfold smSmcEntry
    rw [@entered_eq (c.take ret) ctx 24 (ofBits_withMode _ _) hsp]
    exact if_neg (not_not.mpr (scr_sec hscr))
  let m' := leftMem c.mem ctx low c.banks.words ret c.cpsr
  let M := resultsIn m' ctx
  have hrun : t.smcFromSec = { t with
      r := regsFrom M (wordAt ctx 57) 0 8 (regsFrom M (wordAt ctx 51) 8 5 t.r)
      banks := .load M (wordAt ctx 34)
      monSp := wordAt ctx 67
      pc := M (wordAt ctx 65)
      cpsr := M (wordAt ctx 66)
      scr := c.scr ||| scrNsFiqEa
      mem := M } := smcFromSec_eq (ofBits_withMode _ _) rfl
  have hregs : regsFrom M (wordAt ctx 57) 0 8 (regsFrom M (wordAt ctx 51) 8 5 t.r) =
      regsFrom M (wordAt ctx 57) 0 8 (regsFrom M (wordAt ctx 51) 8 5 c.r) :=
    regsFrom_all fun n hn => Function.update_of_ne (by omega) _ _
  obtain ⟨hlow, hbanks, hpsr, hkept⟩ := @leftMem_get c.mem ctx low c.banks.words ret c.cpsr rfl rfl
  have hload : Context.load m' ctx = Context.load c.mem ctx := by
    refine Context.load_congr rfl (hkept 34 17 (by decide) (by decide)) fun j hj hlt => ?_
    exact Words.apply_eq ((hkept j 1 (by omega) (by omega)).trans Words.get_one)
  refine ⟨M, ?_, ?_, ?_, ?_⟩
  · rw [hentered, hrun, hregs]
    rfl
  · rw [← hload]
    exact load_resultsIn hlow fun _ => rfl
  · exact SmModeRegs.load_of_get ((resultsIn_apart (by decide) (by decide)).trans hbanks)
  · have h := @resultsIn_apart m' ctx 33 1 (by decide) (by decide)
    rw [Words.get_one, Words.get_one] at h
    exact (List.head_eq_of_cons_eq h).trans hpsr

/-- An FIQ while the normal world runs. -/
theorem smFiqEntry_normal (hsp : c.monSp = wordAt ctx 67) :
    ∃ M : Words, smFiqEntry vectors (c.take (ret + 4)) =
      { c with
        r := work (Function.update c.r 1 (c.scr &&& ~~~scrNsFiqEa)) (wordAt ctx 18) (M (wordAt ctx 15))
        banks := .load c.mem (wordAt ctx 1)
        monSp := wordAt ctx 34
        monLr := ret
        monSpsr := c.cpsr
        pc := fiqEntry vectors
        cpsr := c.mem (wordAt ctx 33)
        scr := c.scr &&& ~~~scrNsFiqEa
        mem := M } ∧ Context.load M ctx = { c.context with pc := ret } := by
  let low := (List.range' 0 8).map c.r
  let high := (List.range' 8 5).map c.r
  let M := fiqMem c.mem ctx low high c.banks.words [ret, c.cpsr] (fiqEntry vectors)
  have hret : ret + 4 - 4 = ret := BitVec.add_sub_cancel _ _
  have hrun := @smFiqEntry_eq (c.take (ret + 4)) ctx vectors (ofBits_withMode _ _) hsp
  change smFiqEntry vectors (c.take (ret + 4)) =
    let M := fiqMem c.mem ctx low high c.banks.words [ret + 4 - 4, c.cpsr] (fiqEntry vectors)
    { c with
      r := work (Function.update c.r 1 (c.scr &&& ~~~scrNsFiqEa)) (wordAt ctx 18) (M (wordAt ctx 15))
      banks := .load M (wordAt ctx 1)
      monSp := wordAt ctx 34
      monLr := ret + 4 - 4
      monSpsr := c.cpsr
      pc := fiqEntry vectors
      cpsr := M (wordAt ctx 33)
      scr := c.scr &&& ~~~scrNsFiqEa
      mem := M } at hrun
  rw [hret] at hrun
  obtain ⟨hmodes, hhigh, hlow, hstate, hsec, hpsr⟩ := @fiqMem_get c.mem ctx (fiqEntry vectors) low high
    c.banks.words [ret, c.cpsr] rfl rfl rfl rfl
  change M.get (wordAt ctx 1) 17 = _ at hsec
  have hload : SmModeRegs.load M (wordAt ctx 1) = SmModeRegs.load c.mem (wordAt ctx 1) :=
    SmModeRegs.load_of_get hsec
  refine ⟨M, ?_, ?_⟩
  · rw [hrun]
    dsimp only
    change M (wordAt ctx 33) = _ at hpsr
    rw [← hload, ← hpsr]
  · exact Context.load_eq hmodes hhigh hlow hstate

end Cpu
end SeCloak
